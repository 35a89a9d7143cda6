import NixMark.Iproute.Table

/-!
# Runs of the routing table

The v4 and v6 ranges of contiguous masks are families of aligned blocks on which the bucket hash
is monotone, so the forests hold the tables (`Forest`) after every sequence of additions and
deletions, and a lookup finds the most specific route. For each prefix the calls on it decide, in
their order (`lookups_by_prefix`), and a new prefix leaves no trace when it is deleted
(`lookups_undo`).
-/

namespace NixMark.Iproute

open Lib RouteTree

/-! ## The two families -/

theorem V4H_eq (a : Ulong) : V4H a = field 27 17 a.toNat := by
  have : (0x07ffffff#32).toNat = 2 ^ 27 - 1 := by decide
  simp only [V4H, BitVec.toNat_ushiftRight, BitVec.toNat_and, this, Nat.and_two_pow_sub_one_eq_mod,
    Nat.shiftRight_eq_div_pow, field, Lroot]

theorem V6H_eq (a : V6addr) : V6H a = field 27 17 a.bits.toNat := by
  have h : V6H a = field 27 17 a.w3.toNat := V4H_eq a.w3
  rw [h, V6addr.bits_toNat]
  unfold field
  omega

/-- The ranges of the v4 table. -/
def V4block (a b : Ulong) : Prop := IsBlock a.toNat b.toNat

/-- The ranges of the v6 table. -/
def V6block (a b : V6addr) : Prop := IsBlock a.bits.toNat b.bits.toNat

theorem v4Family : Family V4block V4H where
  le h := BitVec.le_def.mpr (IsBlock.le h)
  laminar h h' := by
    have := IsBlock.laminar h h'
    simpa only [Laminar, Within, BitVec.le_def, BitVec.lt_def] using this
  hash h hx hy := by
    rw [V4H_eq, V4H_eq, V4H_eq]
    exact IsBlock.field_le h ⟨BitVec.le_def.mp hx, BitVec.le_def.mp hy⟩ 27 17

theorem v6Family : Family V6block V6H where
  le h := V6addr.le_iff.mpr (IsBlock.le h)
  laminar h h' := by
    have := IsBlock.laminar h h'
    simpa only [Laminar, Within, V6addr.le_iff, V6addr.lt_iff] using this
  hash h hx hy := by
    rw [V6H_eq, V6H_eq, V6H_eq]
    exact IsBlock.field_le h ⟨V6addr.le_iff.mp hx, V6addr.le_iff.mp hy⟩ 27 17

/-- A v4 mask of `n` leading ones. -/
def V4contiguous (mask : V4bytes) : Prop := ∃ n ≤ 32, v4get mask = prefixMask 32 n

/-- A v6 mask of `n` leading ones. -/
def V6contiguous (mask : V6bytes) : Prop := ∃ n ≤ 128, (v6get mask).bits = prefixMask 128 n

theorem v4range_block {a mask : V4bytes} (h : V4contiguous mask) :
    V4block (v4range a mask).1 (v4range a mask).2 := by
  obtain ⟨n, -, h⟩ := h
  simp only [v4range, h]
  exact mask_block 32 n (v4get a)

theorem and_append4 (a b c d e f g h : Ulong) :
    (a ++ b ++ c ++ d) &&& (e ++ f ++ g ++ h) = (a &&& e) ++ (b &&& f) ++ (c &&& g) ++ (d &&& h) := by
  rw [BitVec.and_append, BitVec.and_append, BitVec.and_append]

theorem or_not_append4 (a b c d e f g h : Ulong) :
    (a ++ b ++ c ++ d) ||| ~~~ (e ++ f ++ g ++ h) =
      (a ||| ~~~ e) ++ (b ||| ~~~ f) ++ (c ||| ~~~ g) ++ (d ||| ~~~ h) := by
  rw [BitVec.not_append, BitVec.not_append, BitVec.not_append, BitVec.or_append,
    BitVec.or_append, BitVec.or_append]

theorem V6addr.bits_and (x y : V6addr) :
    (V6addr.zip (fun x y => x &&& y) x y).bits = x.bits &&& y.bits :=
  (and_append4 _ _ _ _ _ _ _ _).symm

theorem V6addr.bits_or_not (x y : V6addr) :
    (V6addr.zip (fun x y => x ||| ~~~ y) x y).bits = x.bits ||| ~~~ y.bits :=
  (or_not_append4 _ _ _ _ _ _ _ _).symm

theorem v6range_block {a mask : V6bytes} (h : V6contiguous mask) :
    V6block (v6range a mask).1 (v6range a mask).2 := by
  obtain ⟨n, -, h⟩ := h
  simp only [V6block, v6range, V6addr.bits_and, V6addr.bits_or_not, h]
  rw [or_not_mask']
  exact mask_block 128 n (v6get a).bits

/-! ## The loops of the lookups -/

theorem v4walk_eq (la : Ulong) (t : RouteTree Ulong) (q : Option (Route Ulong)) :
    v4walk la t q = walk la t q := by
  induction t generalizing q with
  | nil => rfl
  | node p d l m r ihl ihm ihr =>
    simp only [v4walk, walk, ihl, ihm, ihr]
    rcases lt_or_ge la p.address with h | h
    · rw [if_neg (not_le.mpr h), if_pos h]
    · rw [if_pos h, if_neg (not_lt.mpr h)]
      rcases lt_or_ge p.endaddress la with h' | h'
      · rw [if_neg (not_le.mpr h'), if_pos h']
      · rw [if_pos h', if_neg (not_lt.mpr h')]

/-- The loops over words decide as `lcmp` does. -/
theorem wordsBelow_eq (a b : List Ulong) : wordsBelow a b = decide (lcmp a b < 0) := by
  induction a generalizing b with
  | nil => simp [wordsBelow, lcmp]
  | cons x a ih =>
    cases b with
    | nil => simp [wordsBelow, lcmp]
    | cons y b =>
      simp only [wordsBelow, lcmp]
      rcases lt_trichotomy x y with h | h | h
      · simp [h, h.ne, h.asymm]
      · simp [h, ih]
      · simp [h, h.ne', h.asymm]

theorem wordsAbove_eq (a b : List Ulong) : wordsAbove a b = decide (lcmp b a < 0) := by
  induction a generalizing b with
  | nil => cases b <;> simp [wordsAbove, lcmp]
  | cons x a ih =>
    cases b with
    | nil => simp [wordsAbove, lcmp]
    | cons y b =>
      simp only [wordsAbove, lcmp]
      rcases lt_trichotomy x y with h | h | h
      · simp [h, h.ne, h.asymm]
      · simp [h, ih]
      · simp [h, h.ne', h.asymm]

theorem v6walk_eq (la : V6addr) (t : RouteTree V6addr) (q : Option (Route V6addr)) :
    v6walk la t q = walk la t q := by
  induction t generalizing q with
  | nil => rfl
  | node p d l m r ihl ihm ihr =>
    have lt : ∀ a b : V6addr, lcmp a.words b.words < 0 ↔ a < b := fun _ _ => Iff.rfl
    simp only [v6walk, walk, ihl, ihm, ihr, wordsBelow_eq, wordsAbove_eq, decide_eq_true_eq, lt]

/-! ## Runs -/

/-- A call that changes the routing table. -/
inductive RouteOp where
  | add4 (tag : Vector UInt8 4) (a mask gate : V4bytes) (type : UInt8)
  | del4 (a mask : V4bytes)
  | add6 (tag : Vector UInt8 4) (a mask gate : V6bytes) (type : UInt8)
  | del6 (a mask : V6bytes)

/-- The mask of the call is a contiguous prefix. -/
def RouteOp.Contiguous : RouteOp → Prop
  | add4 _ _ mask _ _ | del4 _ mask => V4contiguous mask
  | add6 _ _ mask _ _ | del6 _ mask => V6contiguous mask

/-- The v4 address `x` is outside the prefix of the call. -/
def RouteOp.Outside4 (x : V4bytes) : RouteOp → Prop
  | add4 _ a mask _ _ | del4 a mask =>
    ¬ ((v4range a mask).1 ≤ v4get x ∧ v4get x ≤ (v4range a mask).2)
  | add6 .. | del6 .. => True

/-- The v6 address `x` is outside the prefix of the call. -/
def RouteOp.Outside6 (x : V6bytes) : RouteOp → Prop
  | add6 _ a mask _ _ | del6 a mask =>
    ¬ ((v6range a mask).1 ≤ v6get x ∧ v6get x ≤ (v6range a mask).2)
  | add4 .. | del4 .. => True

/-- The call on the forests. -/
def RouteOp.run (f : Fs) : RouteOp → Option Fs
  | add4 tag a mask gate type => v4addroute f tag a mask gate type
  | del4 a mask => v4delroute f a mask
  | add6 tag a mask gate type => v6addroute f tag a mask gate type
  | del6 a mask => v6delroute f a mask

/-- The v4 and the v6 table. -/
structure Tables where
  v4 : Table Ulong
  v6 : Table V6addr

/-- The call on the tables. -/
def RouteOp.table (T : Tables) : RouteOp → Tables
  | add4 tag a mask gate type => { T with v4 := T.v4.add (v4new tag a mask gate type) }
  | del4 a mask => { T with v4 := T.v4.del (v4range a mask).1 (v4range a mask).2 }
  | add6 tag a mask gate type => { T with v6 := T.v6.add (v6new tag a mask gate type) }
  | del6 a mask => { T with v6 := T.v6.del (v6range a mask).1 (v6range a mask).2 }

def Fs.empty : Fs := ⟨fun _ => .nil, fun _ => .nil⟩

/-- The calls `ops` on the empty forests. -/
def runRoutes (ops : List RouteOp) : Option Fs := ops.foldlM RouteOp.run Fs.empty

/-- The routes in force after the calls `ops`. -/
def tables (ops : List RouteOp) : Tables := ops.foldl RouteOp.table ⟨.empty, .empty⟩

/-- The forests hold the tables. -/
structure Forest (T : Tables) (f : Fs) : Prop where
  v4 : Rep V4block V4H T.v4 f.v4root
  v6 : Rep V6block V6H T.v6 f.v6root

variable {f : Fs} {op : RouteOp}

/-- One call with a contiguous mask ends, and the forests hold the tables after it. -/
theorem Forest.step {T : Tables} (h : Forest T f) (hop : op.Contiguous) :
    ∃ f', op.run f = some f' ∧ Forest (op.table T) f' := by
  cases op with
  | add4 tag a mask gate type =>
    obtain ⟨root', e, h'⟩ := h.v4.add v4Family (v4new tag a mask gate type) (v4range_block hop)
    exact ⟨_, congrArg (Option.map _) e, h', h.v6⟩
  | del4 a mask =>
    obtain ⟨root', e, h'⟩ := h.v4.del v4Family (rangeRoute _ _ Rv4) ⟨rfl, rfl⟩ (v4range_block hop)
    exact ⟨_, congrArg (Option.map _) e, h', h.v6⟩
  | add6 tag a mask gate type =>
    obtain ⟨root', e, h'⟩ := h.v6.add v6Family (v6new tag a mask gate type) (v6range_block hop)
    exact ⟨_, congrArg (Option.map _) e, h.v4, h'⟩
  | del6 a mask =>
    obtain ⟨root', e, h'⟩ := h.v6.del v6Family (rangeRoute _ _ 0) ⟨rfl, rfl⟩ (v6range_block hop)
    exact ⟨_, congrArg (Option.map _) e, h.v4, h'⟩

/-- Every sequence of calls with contiguous masks ends, and the forests hold the tables. -/
theorem forest_run {ops : List RouteOp} (hops : ∀ op ∈ ops, op.Contiguous) :
    ∃ f, runRoutes ops = some f ∧ Forest (tables ops) f := by
  suffices h : ∀ T f, Forest T f → (∀ op ∈ ops, op.Contiguous) →
      ∃ f', ops.foldlM RouteOp.run f = some f' ∧ Forest (ops.foldl RouteOp.table T) f' from
    h _ _ ⟨.empty, .empty⟩ hops
  clear hops
  induction ops with
  | nil => exact fun T f hf _ => ⟨f, rfl, hf⟩
  | cons op ops ih =>
    intro T f hf hops
    obtain ⟨f₁, e₁, h₁⟩ := hf.step (hops op (by simp))
    obtain ⟨f₂, e₂, h₂⟩ := ih _ f₁ h₁ fun o ho => hops o (by simp [ho])
    exact ⟨f₂, by rw [List.foldlM_cons, e₁]; exact e₂, h₂⟩

theorem Forest.v4find {T : Tables} (h : Forest T f) (a : V4bytes) :
    T.v4.MostSpecific (v4get a) (v4find f a) := by
  rw [Iproute.v4find, v4walk_eq]
  exact h.v4.lookup v4Family _

theorem Forest.v6find {T : Tables} (h : Forest T f) (a : V6bytes) :
    T.v6.MostSpecific (v6get a) (v6find f a) := by
  rw [Iproute.v6find, v6walk_eq]
  exact h.v6.lookup v6Family _

/-- A call does not change which routes of the v4 table contain an address outside its prefix. -/
theorem RouteOp.table_v4 {x : V4bytes} (h : op.Outside4 x) (T : Tables) (s : Route Ulong)
    (hs : s.Has (v4get x)) : (op.table T).v4.Has s ↔ T.v4.Has s := by
  cases op with
  | add4 tag a mask gate type =>
    exact T.v4.has_add (v4new tag a mask gate type) fun e =>
      h ⟨e.1.symm.trans_le hs.1, hs.2.trans_eq e.2⟩
  | del4 a mask => exact T.v4.has_del fun e => h ⟨e.1.symm.trans_le hs.1, hs.2.trans_eq e.2⟩
  | add6 => rfl
  | del6 => rfl

/-- A call does not change which routes of the v6 table contain an address outside its prefix. -/
theorem RouteOp.table_v6 {x : V6bytes} (h : op.Outside6 x) (T : Tables) (s : Route V6addr)
    (hs : s.Has (v6get x)) : (op.table T).v6.Has s ↔ T.v6.Has s := by
  cases op with
  | add4 => rfl
  | del4 => rfl
  | add6 tag a mask gate type =>
    exact T.v6.has_add (v6new tag a mask gate type) fun e =>
      h ⟨e.1.symm.trans_le hs.1, hs.2.trans_eq e.2⟩
  | del6 a mask => exact T.v6.has_del fun e => h ⟨e.1.symm.trans_le hs.1, hs.2.trans_eq e.2⟩

/-- What `v6lookup` should find: a v4 address in v6 form goes to the v4 table first. -/
def MostSpecific6 (T : Tables) (a : V6bytes) : Option Found → Prop
  | some (.v4 r) => isV4 a = true ∧ T.v4.MostSpecific (v4get (v4part a)) (some r)
  | some (.v6 r) => (isV4 a = true → T.v4.MostSpecific (v4get (v4part a)) none) ∧
      T.v6.MostSpecific (v6get a) (some r)
  | none => (isV4 a = true → T.v4.MostSpecific (v4get (v4part a)) none) ∧
      T.v6.MostSpecific (v6get a) none

theorem Forest.v6lookupNode {T : Tables} (h : Forest T f) (a : V6bytes) :
    MostSpecific6 T a (v6lookupNode f a) := by
  have h4 := h.v4find (v4part a)
  have h6 := h.v6find a
  unfold Iproute.v6lookupNode
  by_cases hv : isV4 a = true
  · rw [if_pos hv]
    cases e4 : Iproute.v4find f (v4part a) with
    | some q => rw [e4] at h4; exact ⟨hv, h4⟩
    | none =>
      rw [e4] at h4
      cases e6 : Iproute.v6find f a <;> rw [e6] at h6 <;> exact ⟨fun _ => h4, h6⟩
  · rw [if_neg hv]
    cases e6 : Iproute.v6find f a <;> rw [e6] at h6 <;> exact ⟨fun h => absurd h hv, h6⟩

/-- After every sequence of additions and deletions of contiguous prefixes, a lookup finds the most
specific route in force, no route of the tables is lost from the forests, and one more addition or
deletion does not change what is found for an address outside its prefix. -/
theorem lookup_longest_prefix (ops : List RouteOp) (hops : ∀ op ∈ ops, op.Contiguous) :
    ∃ f, runRoutes ops = some f ∧
      (∀ a, (tables ops).v4.MostSpecific (v4get a) (v4find f a)) ∧
      (∀ a, (tables ops).v6.MostSpecific (v6get a) (v6find f a)) ∧
      (∀ a, MostSpecific6 (tables ops) a (v6lookupNode f a)) ∧
      (∀ r, (tables ops).v4.Has r ↔ ∃ h, r ∈ (f.v4root h).routes) ∧
      (∀ r, (tables ops).v6.Has r ↔ ∃ h, r ∈ (f.v6root h).routes) ∧
      ∀ op : RouteOp, op.Contiguous → ∃ f', op.run f = some f' ∧
        (∀ a, op.Outside4 a → v4find f' a = v4find f a) ∧
        ∀ a, op.Outside6 a → v6find f' a = v6find f a := by
  obtain ⟨f, e, hf⟩ := forest_run hops
  refine ⟨f, e, hf.v4find, hf.v6find, hf.v6lookupNode, fun r => ⟨fun h => ?_, fun ⟨h, hr⟩ => ?_⟩,
    fun r => ⟨fun h => ?_, fun ⟨h, hr⟩ => ?_⟩, fun op hop => ?_⟩
  · exact ⟨V4H r.address, (hf.v4.mem _ r).mpr ⟨h, le_rfl,
      (v4Family.hash (hf.v4.range h).1 (v4Family.le (hf.v4.range h).1) le_rfl).1⟩⟩
  · exact ((hf.v4.mem h r).mp hr).1
  · exact ⟨V6H r.address, (hf.v6.mem _ r).mpr ⟨h, le_rfl,
      (v6Family.hash (hf.v6.range h).1 (v6Family.le (hf.v6.range h).1) le_rfl).1⟩⟩
  · exact ((hf.v6.mem h r).mp hr).1
  · obtain ⟨f', e', hf'⟩ := hf.step hop
    exact ⟨f', e',
      fun a ha => (hf'.v4find a).congr (hf.v4find a) (op.table_v4 ha _),
      fun a ha => (hf'.v6find a).congr (hf.v6find a) (op.table_v6 ha _)⟩

/-- `10.0.0.0/8` over `10.1.0.0/16`: the second prefix is inside the first. -/
private def tenNet : List RouteOp :=
  [.add4 #v[0, 0, 0, 0] #v[10, 1, 0, 0] #v[255, 255, 0, 0] #v[10, 0, 0, 1] 0,
   .add4 #v[0, 0, 0, 0] #v[10, 0, 0, 0] #v[255, 0, 0, 0] #v[10, 0, 0, 2] 0]

theorem lookup_longest_prefix_ten : ∃ f, runRoutes tenNet = some f ∧
    (∀ a, (tables tenNet).v4.MostSpecific (v4get a) (v4find f a)) := by
  obtain ⟨f, e, h, -⟩ := lookup_longest_prefix tenNet (by
    simp only [tenNet, List.mem_cons, List.not_mem_nil, or_false, forall_eq_or_imp, forall_eq]
    exact ⟨⟨16, by decide, by decide⟩, ⟨8, by decide, by decide⟩⟩)
  exact ⟨f, e, h⟩

/-! ## The calls on one prefix -/

def RouteOp.range4 : RouteOp → Option (Ulong × Ulong)
  | add4 _ a mask _ _ | del4 a mask => some (v4range a mask)
  | add6 .. | del6 .. => none

def RouteOp.range6 : RouteOp → Option (V6addr × V6addr)
  | add6 _ a mask _ _ | del6 a mask => some (v6range a mask)
  | add4 .. | del4 .. => none

/-- All lookups find the same. -/
def Agree (f f' : Fs) : Prop :=
  (∀ a, v4find f a = v4find f' a) ∧ (∀ a, v6find f a = v6find f' a) ∧
    ∀ a, v6lookupNode f a = v6lookupNode f' a

theorem Forest.agree {T : Tables} {f' : Fs} (h : Forest T f) (h' : Forest T f') : Agree f f' := by
  have h4 : ∀ a, Iproute.v4find f a = Iproute.v4find f' a := fun a =>
    (h.v4find a).congr (h'.v4find a) fun _ _ => Iff.rfl
  have h6 : ∀ a, Iproute.v6find f a = Iproute.v6find f' a := fun a =>
    (h.v6find a).congr (h'.v6find a) fun _ _ => Iff.rfl
  refine ⟨h4, h6, fun a => ?_⟩
  unfold Iproute.v6lookupNode
  rw [h4, h6]

/-- What is seen of a state depends only on the steps that matter for it. -/
theorem foldl_filter {σ ε β : Type} {f : σ → ε → σ} {v : σ → β} {p : ε → Bool}
    (hon : ∀ s s' e, v s = v s' → v (f s e) = v (f s' e)) (hoff : ∀ s e, p e = false → v (f s e) = v s)
    (l : List ε) : ∀ s s', v s = v s' → v (l.foldl f s) = v ((l.filter p).foldl f s') := by
  induction l with
  | nil => exact fun _ _ h => h
  | cons e l ih =>
    intro s s' h
    cases he : p e with
    | false =>
      rw [List.filter_cons_of_neg (by simp [he])]
      exact ih _ _ ((hoff s e he).trans h)
    | true =>
      rw [List.filter_cons_of_pos he]
      exact ih _ _ (hon s s' e h)

section Table

variable {α : Type} [LinearOrder α] {T T' : Table α} {lo hi : α}

theorem Table.add_at {new : Route α} (h : T lo hi = T' lo hi) :
    T.add new lo hi = T'.add new lo hi := by
  unfold Table.add Table.set
  split_ifs with he
  · rw [← he.1, ← he.2, h]
  · exact h

theorem Table.del_at {a b : α} (h : T lo hi = T' lo hi) : T.del a b lo hi = T'.del a b lo hi := by
  unfold Table.del Table.set
  split_ifs with he
  · rw [← he.1, ← he.2, h]
  · exact h

theorem Table.del_add {new : Route α} (h : T new.address new.endaddress = none) (hr : new.ref = 1) :
    (T.add new).del new.address new.endaddress = T := by
  have hself : T.add new new.address new.endaddress = some new := by
    unfold Table.add
    rw [set_self, h]
  funext a b
  unfold Table.del
  by_cases he : a = new.address ∧ b = new.endaddress
  · rw [he.1, he.2, set_self, hself, h]
    simp [hr]
  · rw [set_ne _ _ he]
    exact set_ne _ _ he

end Table

theorem tables_v4 (ops : List RouteOp) (r : Ulong × Ulong) :
    (tables ops).v4 r.1 r.2 = (tables (ops.filter (·.range4 = some r))).v4 r.1 r.2 := by
  refine foldl_filter (v := fun T : Tables => T.v4 r.1 r.2) (fun T T' op h => ?_)
    (fun T op h => ?_) ops _ _ rfl
  · cases op with
    | add4 => exact Table.add_at h
    | del4 => exact Table.del_at h
    | add6 | del6 => exact h
  · have hne := of_decide_eq_false h
    cases op with
    | add4 | del4 => exact Table.set_ne _ _ fun he => hne (congrArg some (Prod.ext he.1.symm he.2.symm))
    | add6 | del6 => rfl

theorem tables_v6 (ops : List RouteOp) (r : V6addr × V6addr) :
    (tables ops).v6 r.1 r.2 = (tables (ops.filter (·.range6 = some r))).v6 r.1 r.2 := by
  refine foldl_filter (v := fun T : Tables => T.v6 r.1 r.2) (fun T T' op h => ?_)
    (fun T op h => ?_) ops _ _ rfl
  · cases op with
    | add6 => exact Table.add_at h
    | del6 => exact Table.del_at h
    | add4 | del4 => exact h
  · have hne := of_decide_eq_false h
    cases op with
    | add6 | del6 => exact Table.set_ne _ _ fun he => hne (congrArg some (Prod.ext he.1.symm he.2.symm))
    | add4 | del4 => rfl

/-- Calls on different prefixes may be made in any order. -/
theorem lookups_by_prefix (ops ops' : List RouteOp) (hops : ∀ op ∈ ops, op.Contiguous)
    (hops' : ∀ op ∈ ops', op.Contiguous)
    (h4 : ∀ r, ops.filter (·.range4 = some r) = ops'.filter (·.range4 = some r))
    (h6 : ∀ r, ops.filter (·.range6 = some r) = ops'.filter (·.range6 = some r)) :
    ∃ f f', runRoutes ops = some f ∧ runRoutes ops' = some f' ∧ Agree f f' := by
  obtain ⟨f, e, hf⟩ := forest_run hops
  obtain ⟨f', e', hf'⟩ := forest_run hops'
  have htables : tables ops = tables ops' := by
    have hv4 : (tables ops).v4 = (tables ops').v4 := by
      funext lo hi
      rw [tables_v4 ops (lo, hi), tables_v4 ops' (lo, hi), h4]
    have hv6 : (tables ops).v6 = (tables ops').v6 := by
      funext lo hi
      rw [tables_v6 ops (lo, hi), tables_v6 ops' (lo, hi), h6]
    cases hT : tables ops
    cases hT' : tables ops'
    rw [hT, hT'] at hv4 hv6
    cases hv4
    cases hv6
    rfl
  rw [htables] at hf
  exact ⟨f, f', e, e', hf.agree hf'⟩

theorem tenNet_contiguous : ∀ op ∈ tenNet, op.Contiguous := by
  simp only [tenNet, List.mem_cons, List.not_mem_nil, or_false, forall_eq_or_imp, forall_eq]
  exact ⟨⟨16, by decide, by decide⟩, ⟨8, by decide, by decide⟩⟩

theorem lookups_by_prefix_ten : ∃ f f', runRoutes tenNet = some f ∧
    runRoutes tenNet.reverse = some f' ∧ Agree f f' := by
  refine lookups_by_prefix tenNet tenNet.reverse tenNet_contiguous
    (fun op h => tenNet_contiguous op (List.mem_reverse.mp h)) (fun r => ?_) fun r => rfl
  by_cases h : v4range #v[10, 1, 0, 0] #v[255, 255, 0, 0] = r
  · rw [← h]
    rfl
  · simp [tenNet, RouteOp.range4, h, List.filter_cons]

/-- The call that takes an addition back. -/
def RouteOp.undo : RouteOp → RouteOp
  | add4 _ a mask _ _ | del4 a mask => del4 a mask
  | add6 _ a mask _ _ | del6 a mask => del6 a mask

/-- An addition of a prefix that has no route. -/
def RouteOp.New (T : Tables) : RouteOp → Prop
  | add4 _ a mask _ _ => T.v4 (v4range a mask).1 (v4range a mask).2 = none
  | add6 _ a mask _ _ => T.v6 (v6range a mask).1 (v6range a mask).2 = none
  | del4 .. | del6 .. => False

/-- A new prefix is added and deleted: every lookup finds what it found before. -/
theorem lookups_undo (ops : List RouteOp) (hops : ∀ op ∈ ops, op.Contiguous) (op : RouteOp)
    (hop : op.Contiguous) (hnew : op.New (tables ops)) :
    ∃ f f', runRoutes ops = some f ∧ runRoutes (ops ++ [op, op.undo]) = some f' ∧ Agree f f' := by
  obtain ⟨f, e, hf⟩ := forest_run hops
  have hundo : op.undo.Contiguous := by
    cases op <;> exact hop
  obtain ⟨f', e', hf'⟩ := @forest_run (ops ++ [op, op.undo]) fun o ho => by
    simp only [List.mem_append, List.mem_cons, List.not_mem_nil, or_false] at ho
    obtain ho | rfl | rfl := ho
    · exact hops o ho
    · exact hop
    · exact hundo
  have htables : tables (ops ++ [op, op.undo]) = tables ops := by
    unfold tables at hnew ⊢
    rw [List.foldl_append, List.foldl_cons, List.foldl_cons, List.foldl_nil]
    cases op with
    | add4 => exact congrArg (Tables.mk · _) (Table.del_add hnew rfl)
    | add6 => exact congrArg (Tables.mk _) (Table.del_add hnew rfl)
    | del4 | del6 => exact hnew.elim
  rw [htables] at hf'
  exact ⟨f, f', e, e', hf.agree hf'⟩

theorem lookups_undo_ten : ∃ f f', runRoutes tenNet.tail = some f ∧
    runRoutes (tenNet.tail ++ [tenNet[0], tenNet[0].undo]) = some f' ∧ Agree f f' :=
  lookups_undo tenNet.tail (fun op h => tenNet_contiguous op (List.mem_of_mem_tail h)) tenNet[0]
    (tenNet_contiguous _ List.mem_cons_self) rfl

end NixMark.Iproute
