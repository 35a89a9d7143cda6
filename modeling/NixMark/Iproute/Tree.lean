import NixMark.Iproute.Basic
import Mathlib.Data.List.Basic

/-!
# The order of a routing tree

`Ordered` is what the three links of a node mean: the routes under `left` end before the node's
range, those under `right` start after it, and those under `mid` lie strictly inside it. Every
function that changes a tree is described by the routes that its result holds and by `Ordered`:

* `balancetree` keeps both;
* `addnode` of a node that covers no route of the tree adds it with its `mid` (`addnode_apart`);
  of a fresh route, it adds it or moves the first covered subtree to the queue
  (`addnode_fresh`); of a range that is there, it updates the route (`addnode_equal`);
* `drain` puts the queued subtrees back, and needs one round for each (`drain_spec`): no queued
  route covers a route that stays, so that putting one back never queues another subtree.
-/

namespace NixMark.Iproute

open Lib RangeOrder

variable {α : Type} [LinearOrder α]

namespace Route

/-- The range of `r` lies in the range of `s`. -/
def In (r s : Route α) : Prop := Within r.address r.endaddress s.address s.endaddress

/-- The two ranges are apart or nested. -/
def Lam (r s : Route α) : Prop := Laminar r.address r.endaddress s.address s.endaddress

/-- `r` lies strictly inside `s`. -/
def Inside (r s : Route α) : Prop := r.In s ∧ ¬ s.In r

/-- The two routes have the same range. -/
def Same (r s : Route α) : Prop := r.address = s.address ∧ r.endaddress = s.endaddress

variable {r s : Route α}

theorem Lam.symm (h : r.Lam s) : s.Lam r := Laminar.symm h

theorem In.trans {u : Route α} (h : r.In s) (h' : s.In u) : r.In u := Within.trans h h'

theorem Same.in (h : r.Same s) : r.In s := ⟨h.1.ge, h.2.le⟩

omit [LinearOrder α] in
theorem Same.symm (h : r.Same s) : s.Same r := ⟨h.1.symm, h.2.symm⟩

theorem same_of_in (h : r.In s) (h' : s.In r) : r.Same s := Within.antisymm h h'

/-- A nonempty range that ends before `s` does not lie in `s`. -/
theorem not_in_of_lt (hr : r.address ≤ r.endaddress) (h : r.endaddress < s.address) : ¬ r.In s :=
  fun hi => absurd (hi.1.trans hr) (not_le.mpr h)

theorem not_in_of_gt (hr : r.address ≤ r.endaddress) (h : s.endaddress < r.address) : ¬ r.In s :=
  fun hi => absurd (hr.trans hi.2) (not_le.mpr h)

end Route

/-- The outcomes of `rangecompare` on ranges that are apart or nested. -/
theorem rangecompare_cases {a b : Route α} (h : a.Lam b) :
    (rangecompare a b = preceeds ∧ a.endaddress < b.address) ∨
    (rangecompare a b = follows ∧ b.endaddress < a.address) ∨
    (rangecompare a b = contains ∧ b.Inside a) ∨
    (rangecompare a b = equals ∧ a.Same b) ∨
    (rangecompare a b = contained ∧ a.Inside b) := by
  unfold rangecompare
  by_cases h₁ : a.endaddress < b.address
  · simp [h₁]
  by_cases h₂ : b.endaddress < a.address
  · simp [h₁, h₂]
  by_cases h₃ : a.address ≤ b.address ∧ b.endaddress ≤ a.endaddress
  · by_cases h₄ : a.address = b.address ∧ a.endaddress = b.endaddress
    · rw [if_neg h₁, if_neg h₂, if_pos h₃, if_pos h₄]
      exact .inr (.inr (.inr (.inl ⟨rfl, h₄⟩)))
    · have : b.Inside a := ⟨h₃, fun hi => h₄ (Within.antisymm hi h₃)⟩
      simp [h₁, h₂, h₃, h₄, this]
  · have : a.Inside b := by
      refine ⟨?_, h₃⟩
      rcases h with h | h | h | h
      · exact absurd h h₁
      · exact absurd h h₂
      · exact h
      · exact absurd h h₃
    simp [h₁, h₂, h₃, this]

namespace RouteTree

omit [LinearOrder α]

variable {x : Route α}

@[simp] theorem mem_nil : x ∈ (nil : RouteTree α).routes ↔ False := by simp [routes]

variable {d : UInt8} {l m : RouteTree α}

@[simp] theorem mem_node {p : Route α} {r : RouteTree α} :
    x ∈ (node p d l m r).routes ↔ x = p ∨ x ∈ l.routes ∨ x ∈ m.routes ∨ x ∈ r.routes := by
  simp [routes]

end RouteTree

open RouteTree

/-- The meaning of the three links, for each node of the tree. -/
inductive Ordered : RouteTree α → Prop
  | nil : Ordered .nil
  | node {p : Route α} {d : UInt8} {l m r : RouteTree α} (range : p.address ≤ p.endaddress)
      (left : ∀ s ∈ l.routes, s.endaddress < p.address)
      (mid : ∀ s ∈ m.routes, s.Inside p)
      (right : ∀ s ∈ r.routes, p.endaddress < s.address)
      (ol : Ordered l) (om : Ordered m) (or : Ordered r) : Ordered (.node p d l m r)

variable {t : RouteTree α}

/-- The ranges of an ordered tree are not empty. -/
theorem Ordered.le (ot : Ordered t) {x : Route α} (hx : x ∈ t.routes) :
    x.address ≤ x.endaddress := by
  induction ot with
  | nil => simp at hx
  | node range _ _ _ _ _ _ ihl ihm ihr =>
    rcases mem_node.mp hx with rfl | h | h | h
    · exact range
    · exact ihl h
    · exact ihm h
    · exact ihr h

/-! ## Balancing -/

omit [LinearOrder α] in
theorem mem_calcd {x : Route α} : x ∈ (calcd t).routes ↔ x ∈ t.routes := by
  cases t <;> simp [calcd]

theorem Ordered.calcd (ot : Ordered t) : Ordered (calcd t) := by
  cases ot with
  | nil => exact .nil
  | node range left mid right ol om or => exact .node range left mid right ol om or

omit [LinearOrder α] in
theorem mem_balancetree {x : Route α} : x ∈ (balancetree t).routes ↔ x ∈ t.routes := by
  cases t with
  | nil => simp [balancetree]
  | node p d l m r =>
    simp only [balancetree]
    split_ifs
    · cases l with
      | nil => rfl
      | node => simp only [mem_calcd, mem_node]; tauto
    · cases r with
      | nil => rfl
      | node => simp only [mem_calcd, mem_node]; tauto
    · exact mem_calcd

/-- A rotation to the right keeps the order. -/
theorem Ordered.rotateRight {p lp : Route α} {d ld : UInt8} {ll lm lr m r : RouteTree α}
    (ot : Ordered (.node p d (.node lp ld ll lm lr) m r)) :
    Ordered (Iproute.calcd (.node lp ld ll lm (Iproute.calcd (.node p d lr m r)))) := by
  cases ot with
  | node range left mid right ol om or =>
  cases ol with
  | node lrange lleft lmid lright oll olm olr =>
  have hlp : lp.endaddress < p.address := left lp (by simp)
  have op : Ordered (.node p d lr m r) :=
    .node range (fun s hs => left s (by simp [hs])) mid right olr om or
  refine Ordered.calcd (.node lrange lleft lmid (fun s hs => ?_) oll olm op.calcd)
  rw [mem_calcd, mem_node] at hs
  rcases hs with rfl | h | h | h
  · exact hlp
  · exact lright s h
  · exact hlp.trans_le (mid s h).1.1
  · exact hlp.trans_le (range.trans (right s h).le)

/-- A rotation to the left keeps the order. -/
theorem Ordered.rotateLeft {p rp : Route α} {d rd : UInt8} {l m rl rm rr : RouteTree α}
    (ot : Ordered (.node p d l m (.node rp rd rl rm rr))) :
    Ordered (Iproute.calcd (.node rp rd (Iproute.calcd (.node p d l m rl)) rm rr)) := by
  cases ot with
  | node range left mid right ol om or =>
  cases or with
  | node rrange rleft rmid rright orl orm orr =>
  have hrp : p.endaddress < rp.address := right rp (by simp)
  have op : Ordered (.node p d l m rl) :=
    .node range left mid (fun s hs => right s (by simp [hs])) ol om orl
  refine Ordered.calcd (.node rrange (fun s hs => ?_) rmid rright op.calcd orm orr)
  rw [mem_calcd, mem_node] at hs
  rcases hs with rfl | h | h | h
  · exact hrp
  · exact (left s h).trans_le (range.trans hrp.le)
  · exact (mid s h).1.2.trans_lt hrp
  · exact rleft s h

theorem Ordered.balancetree (ot : Ordered t) : Ordered (balancetree t) := by
  cases t with
  | nil => exact .nil
  | node p d l m r =>
    simp only [Iproute.balancetree]
    split_ifs
    · cases l with
      | nil => exact ot
      | node => exact ot.rotateRight
    · cases r with
      | nil => exact ot
      | node => exact ot.rotateLeft
    · exact ot.calcd

/-! ## Adding a node -/

section Membership

variable {p a b c n k : Prop}

theorem add_left : (p ∨ (n ∨ k ∨ a) ∨ b ∨ c) ↔ n ∨ k ∨ p ∨ a ∨ b ∨ c := by
  simp only [or_assoc, or_left_comm]

theorem add_mid : (p ∨ a ∨ (n ∨ k ∨ b) ∨ c) ↔ n ∨ k ∨ p ∨ a ∨ b ∨ c := by
  simp only [or_assoc, or_left_comm]

theorem add_right : (p ∨ a ∨ b ∨ n ∨ k ∨ c) ↔ n ∨ k ∨ p ∨ a ∨ b ∨ c := by
  simp only [or_left_comm]

end Membership

/-- A node that covers no route of the tree is added with its `mid`; nothing is queued. -/
theorem addnode_apart {m : RouteTree α} (new : Route α) (q : List (RouteTree α)) (ot : Ordered t)
    (om : Ordered m) (hm : ∀ s ∈ m.routes, s.Inside new) (hn : new.address ≤ new.endaddress)
    (hlam : ∀ s ∈ t.routes, new.Lam s) (hfree : ∀ s ∈ t.routes, ¬ s.In new) :
    (addnode t new m q).2 = q ∧ Ordered (addnode t new m q).1 ∧
      ∀ x, x ∈ (addnode t new m q).1.routes ↔ x = new ∨ x ∈ m.routes ∨ x ∈ t.routes := by
  induction ot with
  | nil =>
    refine ⟨rfl, .node hn (by simp) hm (by simp) .nil om .nil, fun x => ?_⟩
    simp [addnode]
  | @node p d l mt r range left mid right ol omt or ihl ihm ihr =>
    have sub : ∀ {u : RouteTree α}, (∀ s ∈ u.routes, s ∈ (RouteTree.node p d l mt r).routes) →
        (∀ s ∈ u.routes, new.Lam s) ∧ ∀ s ∈ u.routes, ¬ s.In new := fun h =>
      ⟨fun s hs => hlam s (h s hs), fun s hs => hfree s (h s hs)⟩
    rcases rangecompare_cases (hlam p (by simp)) with ⟨hc, h⟩ | ⟨hc, h⟩ | ⟨hc, h⟩ | ⟨hc, h⟩ | ⟨hc, h⟩
    · -- preceeds
      obtain ⟨hl, hf⟩ := sub (u := l) fun s hs => by simp [hs]
      obtain ⟨hq, o', hx⟩ := ihl hl hf
      simp only [addnode, hc]
      refine ⟨hq, Ordered.balancetree (.node range (fun s hs => ?_) mid right o' omt or),
        fun x => ?_⟩
      · rcases (hx s).mp hs with rfl | hs | hs
        · exact h
        · exact (hm s hs).1.2.trans_lt h
        · exact left s hs
      · rw [mem_balancetree, mem_node, hx, add_left, mem_node]
    · -- follows
      obtain ⟨hl, hf⟩ := sub (u := r) fun s hs => by simp [hs]
      obtain ⟨hq, o', hx⟩ := ihr hl hf
      simp only [addnode, hc]
      refine ⟨hq, Ordered.balancetree (.node range left mid (fun s hs => ?_) ol omt o'),
        fun x => ?_⟩
      · rcases (hx s).mp hs with rfl | hs | hs
        · exact h
        · exact h.trans_le (hm s hs).1.1
        · exact right s hs
      · rw [mem_balancetree, mem_node, hx, add_right, mem_node]
    · exact absurd h.1 (hfree p (by simp))
    · exact absurd h.symm.in (hfree p (by simp))
    · -- contained
      obtain ⟨hl, hf⟩ := sub (u := mt) fun s hs => by simp [hs]
      obtain ⟨hq, o', hx⟩ := ihm hl hf
      simp only [addnode, hc]
      refine ⟨hq, Ordered.balancetree (.node range left (fun s hs => ?_) right ol o' or),
        fun x => ?_⟩
      · rcases (hx s).mp hs with rfl | hs | hs
        · exact h
        · exact ⟨(hm s hs).1.trans h.1, fun hi => h.2 (hi.trans (hm s hs).1)⟩
        · exact mid s hs
      · rw [mem_balancetree, mem_node, hx, add_mid, mem_node]

section Update

variable {p a b c n : Prop}

theorem upd_left : (p ∨ (n ∨ a) ∨ b ∨ c) ↔ n ∨ p ∨ a ∨ b ∨ c := by
  simp only [or_assoc, or_left_comm]

theorem upd_mid : (p ∨ a ∨ (n ∨ b) ∨ c) ↔ n ∨ p ∨ a ∨ b ∨ c := by
  simp only [or_assoc, or_left_comm]

theorem upd_right : (p ∨ a ∨ b ∨ n ∨ c) ↔ n ∨ p ∨ a ∨ b ∨ c := by
  simp only [or_left_comm]

end Update

variable {new : Route α}

omit [LinearOrder α] in
/-- The routes of a node's parts, when only one part has a route of the range of `new`. -/
theorem update_iff {p x : Route α} {l m r : RouteTree α} {d : UInt8} (hp : ¬ p.Same new) :
    (x ∈ (RouteTree.node p d l m r).routes ∧ ¬ x.Same new) ↔
      x = p ∨ (x ∈ l.routes ∧ ¬ x.Same new) ∨ (x ∈ m.routes ∧ ¬ x.Same new) ∨
        (x ∈ r.routes ∧ ¬ x.Same new) := by
  rw [mem_node]
  constructor
  · rintro ⟨rfl | h | h | h, hs⟩
    · exact .inl rfl
    · exact .inr (.inl ⟨h, hs⟩)
    · exact .inr (.inr (.inl ⟨h, hs⟩))
    · exact .inr (.inr (.inr ⟨h, hs⟩))
  · rintro (rfl | ⟨h, hs⟩ | ⟨h, hs⟩ | ⟨h, hs⟩)
    · exact ⟨.inl rfl, hp⟩
    · exact ⟨.inr (.inl h), hs⟩
    · exact ⟨.inr (.inr (.inl h)), hs⟩
    · exact ⟨.inr (.inr (.inr h)), hs⟩

/-- No route of `u` has the range of `new`. -/
def Absent (new : Route α) (u : RouteTree α) : Prop := ∀ x ∈ u.routes, ¬ x.Same new

omit [LinearOrder α] in
theorem Absent.iff {x : Route α} {u : RouteTree α} (h : Absent new u) :
    (x ∈ u.routes ∧ ¬ x.Same new) ↔ x ∈ u.routes :=
  ⟨fun h' => h'.1, fun h' => ⟨h', h x h'⟩⟩

omit [LinearOrder α] in
theorem supercede_range (p new : Route α) : (supercede p new).Same p := by
  unfold supercede
  split_ifs <;> exact ⟨rfl, rfl⟩

/-- Where a range can stand in an ordered node: the parts it cannot be in, from its order with the
node's own range. -/
theorem Ordered.absent {p : Route α} {d : UInt8} {l m r : RouteTree α}
    (ot : Ordered (.node p d l m r)) (hn : new.address ≤ new.endaddress) :
    (new.endaddress < p.address → ¬ p.Same new ∧ Absent new m ∧ Absent new r) ∧
    (p.endaddress < new.address → ¬ p.Same new ∧ Absent new l ∧ Absent new m) ∧
    (new.Same p → Absent new l ∧ Absent new m ∧ Absent new r) ∧
    (new.Inside p → ¬ p.Same new ∧ Absent new l ∧ Absent new r) ∧
    (p.Inside new → ¬ p.Same new ∧ Absent new l ∧ Absent new m ∧ Absent new r) := by
  cases ot with
  | node range left mid right _ _ _ =>
  have before : ∀ x ∈ l.routes, ¬ x.Same new ∨ new.endaddress < p.address := fun x hx => by
    rcases lt_or_ge new.endaddress p.address with h | h
    · exact .inr h
    · exact .inl fun hs => absurd (hs.2 ▸ left x hx) (not_lt.mpr h)
  have after : ∀ x ∈ r.routes, ¬ x.Same new ∨ p.endaddress < new.address := fun x hx => by
    rcases lt_or_ge p.endaddress new.address with h | h
    · exact .inr h
    · exact .inl fun hs => absurd (hs.1 ▸ right x hx) (not_lt.mpr h)
  have inner : ∀ x ∈ m.routes, x.Same new → new.Inside p := fun x hx hs =>
    ⟨hs.symm.in.trans (mid x hx).1, fun hi => (mid x hx).2 (hi.trans hs.symm.in)⟩
  refine ⟨fun h => ⟨?_, ?_, ?_⟩, fun h => ⟨?_, ?_, ?_⟩, fun h => ⟨?_, ?_, ?_⟩,
    fun h => ⟨?_, ?_, ?_⟩, fun h => ⟨?_, ?_, ?_, ?_⟩⟩
  · exact fun hs => absurd (hs.1 ▸ hn) (not_le.mpr h)
  · exact fun x hx hs => absurd ((inner x hx hs).1.1.trans hn) (not_le.mpr h)
  · exact fun x hx => (after x hx).resolve_right (not_lt.mpr (hn.trans (h.le.trans range)))
  · exact fun hs => absurd (hs.2 ▸ hn) (not_le.mpr h)
  · exact fun x hx => (before x hx).resolve_right (not_lt.mpr (range.trans (h.le.trans hn)))
  · exact fun x hx hs => absurd (hn.trans (inner x hx hs).1.2) (not_le.mpr h)
  · exact fun x hx => (before x hx).resolve_right (not_lt.mpr (h.1 ▸ hn))
  · exact fun x hx hs => (inner x hx hs).2 h.symm.in
  · exact fun x hx => (after x hx).resolve_right (not_lt.mpr (h.2 ▸ hn))
  · exact fun hs => h.2 hs.in
  · exact fun x hx => (before x hx).resolve_right (not_lt.mpr (h.1.1.trans hn))
  · exact fun x hx => (after x hx).resolve_right (not_lt.mpr (hn.trans h.1.2))
  · exact fun hs => h.2 hs.symm.in
  · exact fun x hx => (before x hx).resolve_right (not_lt.mpr (range.trans h.1.2))
  · exact fun x hx hs => h.2 (inner x hx hs).1
  · exact fun x hx => (after x hx).resolve_right (not_lt.mpr (h.1.1.trans range))

/-- An ordered tree has at most one route of a range. -/
theorem Ordered.unique (ot : Ordered t) {s s' : Route α} (hs : s ∈ t.routes) (hs' : s' ∈ t.routes)
    (h : s'.Same s) : s' = s := by
  have hle := ot.le hs
  induction ot with
  | nil => simp at hs
  | @node p d l m r range left mid right ol om or ihl ihm ihr =>
    obtain ⟨a₁, a₂, a₃, a₄, -⟩ :=
      (Ordered.node (d := d) range left mid right ol om or).absent hle
    rcases mem_node.mp hs with rfl | hs | hs | hs
    · obtain ⟨hl, hm, hr⟩ := a₃ ⟨rfl, rfl⟩
      rcases mem_node.mp hs' with e | hs' | hs' | hs'
      · exact e
      · exact absurd h (hl s' hs')
      · exact absurd h (hm s' hs')
      · exact absurd h (hr s' hs')
    · obtain ⟨hp, hm, hr⟩ := a₁ (left s hs)
      rcases mem_node.mp hs' with rfl | hs' | hs' | hs'
      · exact absurd h hp
      · exact ihl hs hs'
      · exact absurd h (hm s' hs')
      · exact absurd h (hr s' hs')
    · obtain ⟨hp, hl, hr⟩ := a₄ (mid s hs)
      rcases mem_node.mp hs' with rfl | hs' | hs' | hs'
      · exact absurd h hp
      · exact absurd h (hl s' hs')
      · exact ihm hs hs'
      · exact absurd h (hr s' hs')
    · obtain ⟨hp, hl, hm⟩ := a₂ (right s hs)
      rcases mem_node.mp hs' with rfl | hs' | hs' | hs'
      · exact absurd h hp
      · exact absurd h (hl s' hs')
      · exact absurd h (hm s' hs')
      · exact ihr hs hs'

/-- The route of `t` with the range of `new` is updated in place. -/
theorem addnode_equal {s : Route α} (q : List (RouteTree α)) (ot : Ordered t)
    (hn : new.address ≤ new.endaddress) (hlam : ∀ s ∈ t.routes, new.Lam s) (hs : s ∈ t.routes)
    (hsame : s.Same new) :
    (addnode t new .nil q).2 = q ∧ Ordered (addnode t new .nil q).1 ∧
      ∀ x, x ∈ (addnode t new .nil q).1.routes ↔
        x = supercede s new ∨ (x ∈ t.routes ∧ ¬ x.Same new) := by
  induction ot with
  | nil => simp at hs
  | @node p d l mt r range left mid right ol omt or ihl ihm ihr =>
    obtain ⟨a₁, a₂, a₃, a₄, a₅⟩ :=
      (Ordered.node (d := d) range left mid right ol omt or).absent hn
    have hsup := supercede_range s new
    rcases rangecompare_cases (hlam p (by simp)) with ⟨hc, h⟩ | ⟨hc, h⟩ | ⟨hc, h⟩ | ⟨hc, h⟩ | ⟨hc, h⟩
    · -- preceeds
      obtain ⟨hp, hm, hr⟩ := a₁ h
      have hs' : s ∈ l.routes := by
        rcases mem_node.mp hs with rfl | hs | hs | hs
        · exact absurd hsame hp
        · exact hs
        · exact absurd hsame (hm s hs)
        · exact absurd hsame (hr s hs)
      obtain ⟨hq, o', hx⟩ := ihl (fun s hs => hlam s (by simp [hs])) hs'
      simp only [addnode, hc]
      refine ⟨hq, Ordered.balancetree (.node range (fun u hu => ?_) mid right o' omt or),
        fun x => ?_⟩
      · rcases (hx u).mp hu with rfl | hu
        · exact hsup.2 ▸ left s hs'
        · exact left u hu.1
      · rw [mem_balancetree, mem_node, hx, upd_left, update_iff hp, hm.iff, hr.iff]
    · -- follows
      obtain ⟨hp, hl, hm⟩ := a₂ h
      have hs' : s ∈ r.routes := by
        rcases mem_node.mp hs with rfl | hs | hs | hs
        · exact absurd hsame hp
        · exact absurd hsame (hl s hs)
        · exact absurd hsame (hm s hs)
        · exact hs
      obtain ⟨hq, o', hx⟩ := ihr (fun s hs => hlam s (by simp [hs])) hs'
      simp only [addnode, hc]
      refine ⟨hq, Ordered.balancetree (.node range left mid (fun u hu => ?_) ol omt o'),
        fun x => ?_⟩
      · rcases (hx u).mp hu with rfl | hu
        · exact hsup.1 ▸ right s hs'
        · exact right u hu.1
      · rw [mem_balancetree, mem_node, hx, upd_right, update_iff hp, hl.iff, hm.iff]
    · -- contains
      obtain ⟨hp, hl, hm, hr⟩ := a₅ h
      rcases mem_node.mp hs with rfl | hs | hs | hs
      · exact absurd hsame hp
      · exact absurd hsame (hl s hs)
      · exact absurd hsame (hm s hs)
      · exact absurd hsame (hr s hs)
    · -- equals
      obtain ⟨hl, hm, hr⟩ := a₃ h
      obtain rfl : s = p := by
        rcases mem_node.mp hs with hs | hs | hs | hs
        · exact hs
        · exact absurd hsame (hl s hs)
        · exact absurd hsame (hm s hs)
        · exact absurd hsame (hr s hs)
      simp only [addnode, hc]
      refine ⟨trivial, Ordered.balancetree (.node (hsup.1.le.trans (range.trans hsup.2.ge))
        (fun u hu => hsup.1 ▸ left u hu) (fun u hu => ?_) (fun u hu => hsup.2 ▸ right u hu)
        ol omt or), fun x => ?_⟩
      · exact ⟨(mid u hu).1.trans hsup.symm.in, fun hi => (mid u hu).2 (hsup.symm.in.trans hi)⟩
      · rw [mem_balancetree, mem_node, mem_node]
        constructor
        · rintro (h' | h' | h' | h')
          · exact .inl h'
          · exact .inr ⟨.inr (.inl h'), hl x h'⟩
          · exact .inr ⟨.inr (.inr (.inl h')), hm x h'⟩
          · exact .inr ⟨.inr (.inr (.inr h')), hr x h'⟩
        · rintro (h' | ⟨rfl | h' | h' | h', hx⟩)
          · exact .inl h'
          · exact absurd hsame hx
          · exact .inr (.inl h')
          · exact .inr (.inr (.inl h'))
          · exact .inr (.inr (.inr h'))
    · -- contained
      obtain ⟨hp, hl, hr⟩ := a₄ h
      have hs' : s ∈ mt.routes := by
        rcases mem_node.mp hs with rfl | hs | hs | hs
        · exact absurd hsame hp
        · exact absurd hsame (hl s hs)
        · exact hs
        · exact absurd hsame (hr s hs)
      obtain ⟨hq, o', hx⟩ := ihm (fun s hs => hlam s (by simp [hs])) hs'
      simp only [addnode, hc]
      refine ⟨hq, Ordered.balancetree (.node range left (fun u hu => ?_) right ol o' or),
        fun x => ?_⟩
      · rcases (hx u).mp hu with rfl | hu
        · exact ⟨hsup.in.trans (mid s hs').1, fun hi => (mid s hs').2 (hi.trans hsup.in)⟩
        · exact mid u hu.1
      · rw [mem_balancetree, mem_node, hx, upd_mid, update_iff hp, hl.iff, hr.iff]

/-- No route of `u` lies in a route of `p`. -/
def Uncovered (u p : RouteTree α) : Prop := ∀ s ∈ u.routes, ∀ x ∈ p.routes, ¬ s.In x

/-- A fresh route is added, or takes the place of a subtree `p` whose root it covers; `p` is then
queued, and covers none of the routes that stay. -/
theorem addnode_fresh (q : List (RouteTree α)) (ot : Ordered t) (hn : new.address ≤ new.endaddress)
    (hlam : ∀ s ∈ t.routes, new.Lam s) (hne : ∀ s ∈ t.routes, ¬ s.Same new) :
    ∃ p : RouteTree α, (addnode t new .nil q).2 = addqueue q p ∧ Ordered p ∧
      Ordered (addnode t new .nil q).1 ∧ Uncovered (addnode t new .nil q).1 p ∧
      ∀ x, x ∈ (addnode t new .nil q).1.routes ∨ x ∈ p.routes ↔ x = new ∨ x ∈ t.routes := by
  induction ot with
  | nil =>
    refine ⟨.nil, rfl, .nil, .node hn (by simp) (by simp) (by simp) .nil .nil .nil, ?_, fun x => ?_⟩
    · simp [Uncovered]
    · simp [addnode]
  | @node p d l mt r range left mid right ol omt or ihl ihm ihr =>
    rcases rangecompare_cases (hlam p (by simp)) with ⟨hc, h⟩ | ⟨hc, h⟩ | ⟨hc, h⟩ | ⟨hc, h⟩ | ⟨hc, h⟩
    · -- preceeds: what is added or queued ends before the root
      obtain ⟨u, hq, ou, o', hu, hx⟩ :=
        ihl (fun s hs => hlam s (by simp [hs])) (fun s hs => hne s (by simp [hs]))
      have before : ∀ x, x ∈ (addnode l new .nil q).1.routes ∨ x ∈ u.routes →
          x.endaddress < p.address := fun x hx' => by
        rcases (hx x).mp hx' with rfl | hx'
        · exact h
        · exact left x hx'
      simp only [addnode, hc]
      refine ⟨u, hq, ou, Ordered.balancetree
        (.node range (fun s hs => before s (.inl hs)) mid right o' omt or), fun s hs x hxu => ?_,
        fun x => ?_⟩
      · have hb := before x (.inr hxu)
        rw [mem_balancetree, mem_node] at hs
        rcases hs with rfl | hs | hs | hs
        · exact Route.not_in_of_gt range hb
        · exact hu s hs x hxu
        · exact Route.not_in_of_gt (omt.le hs) (hb.trans_le (mid s hs).1.1)
        · exact Route.not_in_of_gt (or.le hs) (hb.trans_le (range.trans (right s hs).le))
      · have := hx x
        rw [mem_balancetree, mem_node, mem_node]
        grind
    · -- follows: what is added or queued starts after the root
      obtain ⟨u, hq, ou, o', hu, hx⟩ :=
        ihr (fun s hs => hlam s (by simp [hs])) (fun s hs => hne s (by simp [hs]))
      have after : ∀ x, x ∈ (addnode r new .nil q).1.routes ∨ x ∈ u.routes →
          p.endaddress < x.address := fun x hx' => by
        rcases (hx x).mp hx' with rfl | hx'
        · exact h
        · exact right x hx'
      simp only [addnode, hc]
      refine ⟨u, hq, ou, Ordered.balancetree
        (.node range left mid (fun s hs => after s (.inl hs)) ol omt o'), fun s hs x hxu => ?_,
        fun x => ?_⟩
      · have hb := after x (.inr hxu)
        rw [mem_balancetree, mem_node] at hs
        rcases hs with rfl | hs | hs | hs
        · exact Route.not_in_of_lt range hb
        · exact Route.not_in_of_lt (ol.le hs) ((left s hs).trans_le (range.trans hb.le))
        · exact Route.not_in_of_lt (omt.le hs) ((mid s hs).1.2.trans_lt hb)
        · exact hu s hs x hxu
      · have := hx x
        rw [mem_balancetree, mem_node, mem_node]
        grind
    · -- contains: the whole subtree is queued
      simp only [addnode, hc]
      refine ⟨.node p d l mt r, rfl, .node range left mid right ol omt or, Ordered.balancetree
        (.node hn (by simp) (by simp) (by simp) .nil .nil .nil), fun s hs x hx => ?_, fun x => ?_⟩
      · rw [mem_balancetree, mem_node] at hs
        obtain rfl : s = new := by simpa using hs
        -- a route of the subtree that held `new` would hold its root too
        intro hi
        have hpx : p.In x := h.1.trans hi
        rcases mem_node.mp hx with rfl | hx | hx | hx
        · exact h.2 hi
        · exact Route.not_in_of_gt range (left x hx) hpx
        · exact (mid x hx).2 hpx
        · exact Route.not_in_of_lt range (right x hx) hpx
      · simp [mem_balancetree]
    · exact absurd h.symm (hne p (by simp))
    · -- contained: what is added or queued lies inside the root
      obtain ⟨u, hq, ou, o', hu, hx⟩ :=
        ihm (fun s hs => hlam s (by simp [hs])) (fun s hs => hne s (by simp [hs]))
      have inner : ∀ x, x ∈ (addnode mt new .nil q).1.routes ∨ x ∈ u.routes → x.Inside p :=
        fun x hx' => by
          rcases (hx x).mp hx' with rfl | hx'
          · exact h
          · exact mid x hx'
      simp only [addnode, hc]
      refine ⟨u, hq, ou, Ordered.balancetree
        (.node range left (fun s hs => inner s (.inl hs)) right ol o' or), fun s hs x hxu => ?_,
        fun x => ?_⟩
      · have hb := inner x (.inr hxu)
        rw [mem_balancetree, mem_node] at hs
        rcases hs with rfl | hs | hs | hs
        · exact hb.2
        · exact Route.not_in_of_lt (ol.le hs) ((left s hs).trans_le hb.1.1)
        · exact hu s hs x hxu
        · exact Route.not_in_of_gt (or.le hs) (hb.1.2.trans_lt (right s hs))
      · have := hx x
        rw [mem_balancetree, mem_node, mem_node]
        grind

/-! ## Putting queued subtrees back -/

/-- Walking down `p` adds all its routes to a tree none of whose routes they cover, and queues
nothing. -/
theorem walkadd_spec {p : RouteTree α} (op : Ordered p) (q : List (RouteTree α)) (ot : Ordered t)
    (hlam : ∀ x ∈ p.routes, ∀ s ∈ t.routes, x.Lam s) (hu : Uncovered t p) :
    (walkadd p t q).2 = q ∧ Ordered (walkadd p t q).1 ∧
      ∀ x, x ∈ (walkadd p t q).1.routes ↔ x ∈ p.routes ∨ x ∈ t.routes := by
  induction op generalizing t q with
  | nil => exact ⟨rfl, ot, fun x => by simp [walkadd]⟩
  | @node p d l m r range left mid right ol om or ihl _ ihr =>
    obtain ⟨hq₁, o₁, hx₁⟩ := addnode_apart p q ot om mid range
      (hlam p (by simp)) (fun s hs => hu s hs p (by simp))
    -- the left subtree: its routes end before the root and what is inside it
    have lam₁ : ∀ x ∈ l.routes, ∀ s ∈ (addnode t p m q).1.routes, x.Lam s := by
      intro x hx s hs
      rcases (hx₁ s).mp hs with rfl | hs | hs
      · exact .inl (left x hx)
      · exact .inl ((left x hx).trans_le (mid s hs).1.1)
      · exact hlam x (by simp [hx]) s hs
    have unc₁ : Uncovered (addnode t p m q).1 l := by
      intro s hs x hx
      rcases (hx₁ s).mp hs with rfl | hs | hs
      · exact Route.not_in_of_gt range (left x hx)
      · exact Route.not_in_of_gt (om.le hs) ((left x hx).trans_le (mid s hs).1.1)
      · exact hu s hs x (by simp [hx])
    obtain ⟨hq₂, o₂, hx₂⟩ := ihl (addnode t p m q).2 o₁ lam₁ unc₁
    -- the right subtree: its routes start after all of these
    have after : ∀ x ∈ r.routes, ∀ s ∈ (walkadd l (addnode t p m q).1 (addnode t p m q).2).1.routes,
        s ∈ t.routes ∨ (s.address ≤ s.endaddress ∧ s.endaddress < x.address) := by
      intro x hx s hs
      rcases (hx₂ s).mp hs with hs | hs
      · exact .inr ⟨ol.le hs, (left s hs).trans_le (range.trans (right x hx).le)⟩
      rcases (hx₁ s).mp hs with rfl | hs | hs
      · exact .inr ⟨range, right x hx⟩
      · exact .inr ⟨om.le hs, (mid s hs).1.2.trans_lt (right x hx)⟩
      · exact .inl hs
    obtain ⟨hq₃, o₃, hx₃⟩ := ihr (walkadd l (addnode t p m q).1 (addnode t p m q).2).2 o₂
      (fun x hx s hs => by
        rcases after x hx s hs with h | h
        · exact hlam x (by simp [hx]) s h
        · exact .inr (.inl h.2))
      (fun s hs x hx => by
        rcases after x hx s hs with h | h
        · exact hu s h x (by simp [hx])
        · exact Route.not_in_of_lt h.1 h.2)
    refine ⟨?_, o₃, fun x => ?_⟩
    · show (walkadd r _ _).2 = q
      rw [hq₃, hq₂, hq₁]
    · show x ∈ (walkadd r _ _).1.routes ↔ _
      rw [hx₃, hx₂, hx₁, mem_node]
      simp only [or_assoc, or_left_comm]

/-- The queued subtrees go back one after the other. -/
theorem drain_spec {q : List (RouteTree α)} (oq : ∀ p ∈ q, Ordered p) (hap : q.Pairwise Uncovered)
    {n : Nat} (hfuel : q.length ≤ n) (ot : Ordered t)
    (hlam : ∀ p ∈ q, ∀ x ∈ p.routes, ∀ s, s ∈ t.routes ∨ (∃ p ∈ q, s ∈ p.routes) → x.Lam s)
    (hu : ∀ p ∈ q, Uncovered t p) :
    ∃ t', drain n t q = some t' ∧ Ordered t' ∧
      ∀ x, x ∈ t'.routes ↔ (∃ p ∈ q, x ∈ p.routes) ∨ x ∈ t.routes := by
  induction q generalizing n t with
  | nil => exact ⟨t, by cases n <;> rfl, ot, by simp⟩
  | cons p q ih =>
    obtain ⟨n, rfl⟩ : ∃ k, n = k + 1 := ⟨n - 1, by simp at hfuel; omega⟩
    obtain ⟨hp, hq⟩ := List.pairwise_cons.mp hap
    obtain ⟨hw, o', hx⟩ := walkadd_spec (oq p (by simp)) q ot
      (fun x hx s hs => hlam p (by simp) x hx s (.inl hs)) (hu p (by simp))
    obtain ⟨t', ht, o'', hx'⟩ := ih (fun u h => oq u (by simp [h])) hq (by simpa using hfuel) o'
      (fun u h x hxu s hs => hlam u (by simp [h]) x hxu s (by
        rcases hs with hs | ⟨v, hv, hs⟩
        · rcases (hx s).mp hs with hs | hs
          · exact .inr ⟨p, by simp, hs⟩
          · exact .inl hs
        · exact .inr ⟨v, by simp [hv], hs⟩))
      (fun u h s hs x hxu => by
        rcases (hx s).mp hs with hs | hs
        · exact hp u h s hs x hxu
        · exact hu u (by simp [h]) s hs x hxu)
    refine ⟨t', ?_, o'', fun x => ?_⟩
    · simp only [drain, hw, ht]
    · rw [hx', hx]
      simp only [List.mem_cons, exists_eq_or_imp]
      exact or_left_comm.trans or_assoc.symm

end NixMark.Iproute
