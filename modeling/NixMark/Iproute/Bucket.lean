import NixMark.Iproute.Tree

/-!
# The update of a bucket and the lookup

* `looknode` finds the place of a range if the tree has it (`Focus`, `looknode_found`,
  `looknode_none`).
* `addbucket_spec`, `delbucket_spec`: the routes of a bucket's tree after one round of
  `v4addroute`/`v6addroute` or `v4delroute`/`v6delroute`; the round ends and the tree is ordered.
* `walk_spec`: the loop of the lookup functions returns the innermost route that contains the
  address.
-/

namespace NixMark.Iproute

open Lib RangeOrder RouteTree

variable {α : Type} [LinearOrder α]

/-! ## Finding a node -/

/-- `u` stands in `t` at the place that `put` writes to. -/
structure Focus (t u : RouteTree α) (put : RouteTree α → RouteTree α) : Prop where
  sub : Ordered u
  mem : ∀ t' x, x ∈ (put t').routes ↔ x ∈ t'.routes ∨ x ∈ (put .nil).routes
  whole : ∀ x, x ∈ t.routes ↔ x ∈ u.routes ∨ x ∈ (put .nil).routes
  /-- A subtree with the same ranges may take its place. -/
  ordered : ∀ t', Ordered t' → (∀ x ∈ t'.routes, ∃ y ∈ u.routes, x.Same y) → Ordered (put t')
  /-- The subtree covers no route of the rest. -/
  uncovered : Uncovered (put .nil) u

variable {t : RouteTree α}

theorem Focus.root (ot : Ordered t) : Focus t t id where
  sub := ot
  mem _ _ := by simp
  whole _ := by simp
  ordered _ o _ := o
  uncovered := by simp [Uncovered]

section Links

variable {p : Route α} {d : UInt8} {l m r u : RouteTree α} {put : RouteTree α → RouteTree α}

theorem Focus.left (range : p.address ≤ p.endaddress)
    (left : ∀ s ∈ l.routes, s.endaddress < p.address) (mid : ∀ s ∈ m.routes, s.Inside p)
    (right : ∀ s ∈ r.routes, p.endaddress < s.address) (om : Ordered m) (or : Ordered r)
    (f : Focus l u put) : Focus (.node p d l m r) u fun x => .node p d (put x) m r where
  sub := f.sub
  mem t' x := by rw [mem_node, mem_node, f.mem]; simp only [or_assoc, or_left_comm]
  whole x := by rw [mem_node, mem_node, f.whole]; simp only [or_assoc, or_left_comm]
  ordered t' o h := by
    refine .node range (fun s hs => ?_) mid right (f.ordered t' o h) om or
    rcases (f.mem t' s).mp hs with hs | hs
    · obtain ⟨y, hy, e⟩ := h s hs
      exact e.2 ▸ left y ((f.whole y).mpr (.inl hy))
    · exact left s ((f.whole s).mpr (.inr hs))
  uncovered s hs x hx := by
    have hb := left x ((f.whole x).mpr (.inl hx))
    rcases mem_node.mp hs with rfl | hs | hs | hs
    · exact Route.not_in_of_gt range hb
    · exact f.uncovered s hs x hx
    · exact Route.not_in_of_gt (om.le hs) (hb.trans_le (mid s hs).1.1)
    · exact Route.not_in_of_gt (or.le hs) (hb.trans_le (range.trans (right s hs).le))

theorem Focus.right (range : p.address ≤ p.endaddress)
    (left : ∀ s ∈ l.routes, s.endaddress < p.address) (mid : ∀ s ∈ m.routes, s.Inside p)
    (right : ∀ s ∈ r.routes, p.endaddress < s.address) (ol : Ordered l) (om : Ordered m)
    (f : Focus r u put) : Focus (.node p d l m r) u fun x => .node p d l m (put x) where
  sub := f.sub
  mem t' x := by rw [mem_node, mem_node, f.mem]; simp only [or_left_comm]
  whole x := by rw [mem_node, mem_node, f.whole]; simp only [or_left_comm]
  ordered t' o h := by
    refine .node range left mid (fun s hs => ?_) ol om (f.ordered t' o h)
    rcases (f.mem t' s).mp hs with hs | hs
    · obtain ⟨y, hy, e⟩ := h s hs
      exact e.1 ▸ right y ((f.whole y).mpr (.inl hy))
    · exact right s ((f.whole s).mpr (.inr hs))
  uncovered s hs x hx := by
    have hb := right x ((f.whole x).mpr (.inl hx))
    rcases mem_node.mp hs with rfl | hs | hs | hs
    · exact Route.not_in_of_lt range hb
    · exact Route.not_in_of_lt (ol.le hs) ((left s hs).trans_le (range.trans hb.le))
    · exact Route.not_in_of_lt (om.le hs) ((mid s hs).1.2.trans_lt hb)
    · exact f.uncovered s hs x hx

theorem Focus.mid (range : p.address ≤ p.endaddress)
    (left : ∀ s ∈ l.routes, s.endaddress < p.address) (mid : ∀ s ∈ m.routes, s.Inside p)
    (right : ∀ s ∈ r.routes, p.endaddress < s.address) (ol : Ordered l) (or : Ordered r)
    (f : Focus m u put) : Focus (.node p d l m r) u fun x => .node p d l (put x) r where
  sub := f.sub
  mem t' x := by rw [mem_node, mem_node, f.mem]; simp only [or_assoc, or_left_comm]
  whole x := by rw [mem_node, mem_node, f.whole]; simp only [or_assoc, or_left_comm]
  ordered t' o h := by
    refine .node range left (fun s hs => ?_) right ol (f.ordered t' o h) or
    rcases (f.mem t' s).mp hs with hs | hs
    · obtain ⟨y, hy, e⟩ := h s hs
      have hy := mid y ((f.whole y).mpr (.inl hy))
      exact ⟨e.in.trans hy.1, fun hi => hy.2 (hi.trans e.in)⟩
    · exact mid s ((f.whole s).mpr (.inr hs))
  uncovered s hs x hx := by
    have hb := mid x ((f.whole x).mpr (.inl hx))
    rcases mem_node.mp hs with rfl | hs | hs | hs
    · exact hb.2
    · exact Route.not_in_of_lt (ol.le hs) ((left s hs).trans_le hb.1.1)
    · exact f.uncovered s hs x hx
    · exact Route.not_in_of_gt (or.le hs) (hb.1.2.trans_lt (right s hs))

end Links

/-- `looknode` finds the place of a range that the tree has. -/
theorem looknode_found {r s : Route α} (ot : Ordered t) (hr : r.address ≤ r.endaddress)
    (hlam : ∀ s ∈ t.routes, r.Lam s) (hs : s ∈ t.routes) (hsame : s.Same r) :
    ∃ d l m rt put, looknode t r = some (.node s d l m rt, put) ∧
      Focus t (.node s d l m rt) put := by
  induction ot with
  | nil => simp at hs
  | @node p d l mt rt range left mid right ol omt or ihl ihm ihr =>
    obtain ⟨a₁, a₂, a₃, a₄, a₅⟩ :=
      (Ordered.node (d := d) range left mid right ol omt or).absent hr
    have hs := mem_node.mp hs
    rcases rangecompare_cases (hlam p (by simp)) with ⟨hc, h⟩ | ⟨hc, h⟩ | ⟨hc, h⟩ | ⟨hc, h⟩ | ⟨hc, h⟩
    · obtain ⟨hp, hm, hr'⟩ := a₁ h
      have hs' : s ∈ l.routes := (hs.resolve_left (fun e => hp (e ▸ hsame))).resolve_right
        (fun h => h.elim (fun h => hm s h hsame) (fun h => hr' s h hsame))
      obtain ⟨d', l', m', r', put, e, f⟩ := ihl (fun s hs => hlam s (by simp [hs])) hs'
      exact ⟨d', l', m', r', _, by simp [looknode, hc, e], f.left range left mid right omt or⟩
    · obtain ⟨hp, hl, hm⟩ := a₂ h
      have hs' : s ∈ rt.routes := ((hs.resolve_left (fun e => hp (e ▸ hsame))).resolve_left
        (fun h => hl s h hsame)).resolve_left (fun h => hm s h hsame)
      obtain ⟨d', l', m', r', put, e, f⟩ := ihr (fun s hs => hlam s (by simp [hs])) hs'
      exact ⟨d', l', m', r', _, by simp [looknode, hc, e], f.right range left mid right ol omt⟩
    · obtain ⟨hp, hl, hm, hr'⟩ := a₅ h
      rcases hs with rfl | hs | hs | hs
      · exact absurd hsame hp
      · exact absurd hsame (hl s hs)
      · exact absurd hsame (hm s hs)
      · exact absurd hsame (hr' s hs)
    · obtain ⟨hl, hm, hr'⟩ := a₃ h
      have hs' : s = p := hs.resolve_right (fun h => h.elim (fun h => hl s h hsame)
        (fun h => h.elim (fun h => hm s h hsame) (fun h => hr' s h hsame)))
      subst hs'
      exact ⟨d, l, mt, rt, id, by simp [looknode, hc], .root (.node range left mid right ol omt or)⟩
    · obtain ⟨hp, hl, hr'⟩ := a₄ h
      have hs' : s ∈ mt.routes := ((hs.resolve_left (fun e => hp (e ▸ hsame))).resolve_left
        (fun h => hl s h hsame)).resolve_right (fun h => hr' s h hsame)
      obtain ⟨d', l', m', r', put, e, f⟩ := ihm (fun s hs => hlam s (by simp [hs])) hs'
      exact ⟨d', l', m', r', _, by simp [looknode, hc, e], f.mid range left mid right ol or⟩

/-- `looknode` finds nothing if the tree does not have the range. -/
theorem looknode_none {r : Route α} (hlam : ∀ s ∈ t.routes, r.Lam s)
    (hne : ∀ s ∈ t.routes, ¬ s.Same r) : looknode t r = none := by
  induction t with
  | nil => rfl
  | node p d l m rt ihl ihm ihr =>
    have e₁ := ihl (fun s hs => hlam s (by simp [hs])) (fun s hs => hne s (by simp [hs]))
    have e₂ := ihm (fun s hs => hlam s (by simp [hs])) (fun s hs => hne s (by simp [hs]))
    have e₃ := ihr (fun s hs => hlam s (by simp [hs])) (fun s hs => hne s (by simp [hs]))
    rcases rangecompare_cases (hlam p (by simp)) with ⟨hc, h⟩ | ⟨hc, h⟩ | ⟨hc, h⟩ | ⟨hc, h⟩ | ⟨hc, h⟩
    · simp [looknode, hc, e₁]
    · simp [looknode, hc, e₃]
    · simp [looknode, hc]
    · exact absurd h.symm (hne p (by simp))
    · simp [looknode, hc, e₂]

/-! ## The update of one bucket -/

variable {q : List (RouteTree α)}

omit [LinearOrder α] in
theorem exists_addqueue {p : RouteTree α} {x : Route α} :
    (∃ u ∈ addqueue q p, x ∈ u.routes) ↔ x ∈ p.routes ∨ ∃ u ∈ q, x ∈ u.routes := by
  cases p with
  | nil => simp [addqueue]
  | node => simp only [addqueue, List.mem_cons, exists_eq_or_imp]

/-- No queued subtree is nil. -/
def Nonnil (q : List (RouteTree α)) : Prop := ∀ p ∈ q, 0 < p.size

omit [LinearOrder α] in
theorem Nonnil.addqueue (h : Nonnil q) (p : RouteTree α) : Nonnil (addqueue q p) := by
  cases p with
  | nil => exact h
  | node =>
    intro u hu
    rcases List.mem_cons.mp hu with rfl | hu
    · simp [RouteTree.size]
    · exact h u hu

omit [LinearOrder α] in
/-- One round for each queued node is enough for one round for each queued subtree. -/
theorem Nonnil.length_le (h : Nonnil q) : q.length ≤ queued q := by
  induction q with
  | nil => simp [queued]
  | cons p q ih =>
    have h₁ := h p (by simp)
    have h₂ := ih fun u hu => h u (by simp [hu])
    simp only [queued, List.map_cons, List.sum_cons, List.length_cons] at h₂ ⊢
    omega

theorem pairwise_addqueue {p : RouteTree α} (h : q.Pairwise Uncovered) (hp : ∀ u ∈ q, Uncovered p u)
    :
    (addqueue q p).Pairwise Uncovered := by
  cases p with
  | nil => exact h
  | node => exact List.pairwise_cons.mpr ⟨hp, h⟩

/-- Adding a route to a bucket: its range's old route is superceded, or there was none and the
route is new. No route of the bucket is lost. -/
theorem addbucket_spec {new : Route α} (ot : Ordered t) (hn : new.address ≤ new.endaddress)
    (hlam : ∀ s ∈ t.routes, new.Lam s) (hlamt : ∀ s ∈ t.routes, ∀ x ∈ t.routes, s.Lam x) :
    ∃ t', addbucket new t = some t' ∧ Ordered t' ∧ ∀ x, x ∈ t'.routes ↔
      (x ∈ t.routes ∧ ¬ x.Same new) ∨ (∃ s ∈ t.routes, s.Same new ∧ x = supercede s new) ∨
        ((∀ s ∈ t.routes, ¬ s.Same new) ∧ x = new) := by
  by_cases hex : ∃ s ∈ t.routes, s.Same new
  · obtain ⟨s, hs, hsame⟩ := hex
    obtain ⟨hq, o', hx⟩ := addnode_equal [] ot hn hlam hs hsame
    refine ⟨_, by simp only [addbucket, hq, drain], o', fun x => ?_⟩
    rw [hx]
    constructor
    · rintro (h | h)
      · exact .inr (.inl ⟨s, hs, hsame, h⟩)
      · exact .inl h
    · rintro (h | ⟨s', hs', hsame', rfl⟩ | ⟨h, -⟩)
      · exact .inr h
      · obtain rfl := ot.unique hs hs' ⟨hsame'.1.trans hsame.1.symm, hsame'.2.trans hsame.2.symm⟩
        exact .inl rfl
      · exact absurd hsame (h s hs)
  · push Not at hex
    obtain ⟨p, hq, op, o', hu, hx⟩ := addnode_fresh [] ot hn hlam hex
    have lam : ∀ x y, (x = new ∨ x ∈ t.routes) → (y = new ∨ y ∈ t.routes) → x.Lam y := by
      rintro x y (rfl | h) (rfl | h')
      · exact .inr (.inr (.inl (Within.refl _ _)))
      · exact hlam y h'
      · exact (hlam x h).symm
      · exact hlamt x h y h'
    have hmem : ∀ u ∈ addqueue [] p, u = p := fun u hu => by simpa using mem_addqueue hu
    have hnn : Nonnil (addqueue [] p) := Nonnil.addqueue (by simp [Nonnil]) p
    obtain ⟨t', ht', o'', hx'⟩ := drain_spec (q := addqueue [] p)
      (fun u hu => hmem u hu ▸ op) (pairwise_addqueue .nil (by simp))
      hnn.length_le o'
      (fun u hu x hxu s hs => by
        obtain rfl := hmem u hu
        refine lam x s ((hx x).mp (.inr hxu)) ?_
        rcases hs with hs | ⟨v, hv, hs⟩
        · exact (hx s).mp (.inl hs)
        · exact (hx s).mp (.inr (hmem v hv ▸ hs)))
      (fun u hu' => hmem u hu' ▸ hu)
    refine ⟨t', by simp only [addbucket, hq, ht'], o'', fun x => ?_⟩
    rw [hx', exists_addqueue, or_comm]
    simp only [List.not_mem_nil, false_and, exists_false, or_false, hx]
    constructor
    · rintro (rfl | h)
      · exact .inr (.inr ⟨hex, rfl⟩)
      · exact .inl ⟨h, hex x h⟩
    · rintro (⟨h, -⟩ | ⟨s, hs, hsame, -⟩ | ⟨-, h⟩)
      · exact .inr h
      · exact absurd hsame (hex s hs)
      · exact .inl h

/-- The subtrees of a removed node go back without its route. -/
theorem delete_spec {l m r : RouteTree α} {p : Route α} {d : UInt8}
    {put : RouteTree α → RouteTree α} (f : Focus t (.node p d l m r) put)
    (hlamt : ∀ s ∈ t.routes, ∀ x ∈ t.routes, s.Lam x) :
    ∃ t', drain (queued (addqueue (addqueue (addqueue [] l) m) r)) (put .nil)
        (addqueue (addqueue (addqueue [] l) m) r) = some t' ∧ Ordered t' ∧
      ∀ x, x ∈ t'.routes ↔ x ∈ t.routes ∧ ¬ x.Same p := by
  have op := f.sub
  cases op with
  | node range left mid right ol om or =>
  have hmem : ∀ u ∈ addqueue (addqueue (addqueue [] l) m) r, u = r ∨ u = m ∨ u = l := by
    intro u hu
    rcases mem_addqueue hu with h | hu
    · exact .inl h
    rcases mem_addqueue hu with h | hu
    · exact .inr (.inl h)
    · exact .inr (.inr (by simpa using mem_addqueue hu))
  have hx : ∀ x, (∃ u ∈ addqueue (addqueue (addqueue [] l) m) r, x ∈ u.routes) ↔
      x ∈ r.routes ∨ x ∈ m.routes ∨ x ∈ l.routes := fun x => by
    simp [exists_addqueue]
  have whole : ∀ x, (x ∈ (put .nil).routes ∨ x ∈ r.routes ∨ x ∈ m.routes ∨ x ∈ l.routes) →
      x ∈ t.routes := fun x h => (f.whole x).mpr (by rw [mem_node]; tauto)
  have hml : Uncovered m l := fun s hs x hx =>
    Route.not_in_of_gt (om.le hs) ((left x hx).trans_le (mid s hs).1.1)
  have hrl : Uncovered r l := fun s hs x hx =>
    Route.not_in_of_gt (or.le hs) ((left x hx).trans_le (range.trans (right s hs).le))
  have hrm : Uncovered r m := fun s hs x hx =>
    Route.not_in_of_gt (or.le hs) ((mid x hx).1.2.trans_lt (right s hs))
  obtain ⟨t', ht', o', hx'⟩ := drain_spec (q := addqueue (addqueue (addqueue [] l) m) r)
    (n := queued (addqueue (addqueue (addqueue [] l) m) r)) (t := put .nil)
    (fun u hu => by rcases hmem u hu with rfl | rfl | rfl <;> assumption)
    (pairwise_addqueue (pairwise_addqueue (pairwise_addqueue .nil (by simp))
      (fun u hu => by
        obtain rfl : u = l := by simpa using mem_addqueue hu
        exact hml))
      (fun u hu => by
        rcases mem_addqueue hu with rfl | hu
        · exact hrm
        · obtain rfl : u = l := by simpa using mem_addqueue hu
          exact hrl))
    (((Nonnil.addqueue (by simp [Nonnil]) l).addqueue m).addqueue r).length_le
    (f.ordered .nil .nil (by simp))
    (fun u hu x hxu s hs => by
      refine hlamt x (whole x (.inr ((hx x).mp ⟨u, hu, hxu⟩))) s (whole s ?_)
      rcases hs with hs | hs
      · exact .inl hs
      · exact .inr ((hx s).mp hs))
    (fun u hu s hs x hxu => f.uncovered s hs x (by
      rcases hmem u hu with rfl | rfl | rfl <;> simp [hxu]))
  refine ⟨t', ht', o', fun x => ?_⟩
  obtain ⟨-, -, a, -, -⟩ := (Ordered.node (d := d) range left mid right ol om or).absent range
  obtain ⟨hl, hm, hr⟩ := a ⟨rfl, rfl⟩
  rw [hx', hx, f.whole, mem_node]
  constructor
  · rintro ((h | h | h) | h)
    · exact ⟨.inl (.inr (.inr (.inr h))), hr x h⟩
    · exact ⟨.inl (.inr (.inr (.inl h))), hm x h⟩
    · exact ⟨.inl (.inr (.inl h)), hl x h⟩
    · exact ⟨.inr h, fun e => f.uncovered x h p (by simp) e.in⟩
  · rintro ⟨(rfl | h | h | h) | h, hs⟩
    · exact absurd ⟨rfl, rfl⟩ hs
    · exact .inl (.inr (.inr h))
    · exact .inl (.inr (.inl h))
    · exact .inl (.inl h)
    · exact .inr h

/-- Deleting a range from a bucket: its route loses one reference, and goes with the last one. No
other route of the bucket is lost. -/
theorem delbucket_spec {rt : Route α} (ot : Ordered t) (hr : rt.address ≤ rt.endaddress)
    (hlam : ∀ s ∈ t.routes, rt.Lam s) (hlamt : ∀ s ∈ t.routes, ∀ x ∈ t.routes, s.Lam x) :
    ∃ t', delbucket rt t = some t' ∧ Ordered t' ∧ ∀ x, x ∈ t'.routes ↔
      (x ∈ t.routes ∧ ¬ x.Same rt) ∨
        ∃ s ∈ t.routes, s.Same rt ∧ s.ref - 1 ≠ 0 ∧ x = { s with ref := s.ref - 1 } := by
  by_cases hex : ∃ s ∈ t.routes, s.Same rt
  · obtain ⟨p, hp, hsame⟩ := hex
    have huniq : ∀ s ∈ t.routes, s.Same rt → s = p := fun s hs h =>
      ot.unique hp hs ⟨h.1.trans hsame.1.symm, h.2.trans hsame.2.symm⟩
    have hiff : ∀ x : Route α, x.Same p ↔ x.Same rt := fun x =>
      ⟨fun h => ⟨h.1.trans hsame.1, h.2.trans hsame.2⟩,
        fun h => ⟨h.1.trans hsame.1.symm, h.2.trans hsame.2.symm⟩⟩
    obtain ⟨d, l, m, r, put, hlook, f⟩ := looknode_found ot hr hlam hp hsame
    by_cases href : p.ref - 1 = 0
    · obtain ⟨t', ht', o', hx⟩ := delete_spec f hlamt
      refine ⟨t', by simp only [delbucket, hlook, href, ↓reduceIte, ht'], o', fun x => ?_⟩
      rw [hx, hiff]
      constructor
      · exact .inl
      · rintro (h | ⟨s, hs, hs', hne, -⟩)
        · exact h
        · exact absurd (huniq s hs hs' ▸ href) hne
    · refine ⟨put (.node { p with ref := p.ref - 1 } d l m r),
        by simp only [delbucket, hlook, href, ↓reduceIte], f.ordered _ ?_ ?_, fun x => ?_⟩
      · have op := f.sub
        cases op with
        | node range left mid right ol om or => exact .node range left mid right ol om or
      · intro x hx
        rcases mem_node.mp hx with rfl | hx
        · exact ⟨p, by simp, rfl, rfl⟩
        · exact ⟨x, mem_node.mpr (.inr hx), rfl, rfl⟩
      · have op := f.sub
        cases op with
        | node range left mid right ol om or =>
        obtain ⟨-, -, a, -, -⟩ := (Ordered.node (d := d) range left mid right ol om or).absent range
        obtain ⟨hl, hm, hr⟩ := a ⟨rfl, rfl⟩
        rw [f.mem, f.whole, mem_node, mem_node, ← hiff]
        constructor
        · rintro ((rfl | h | h | h) | h)
          · exact .inr ⟨p, (f.whole p).mpr (.inl (by simp)), hsame, href, rfl⟩
          · exact .inl ⟨.inl (.inr (.inl h)), hl x h⟩
          · exact .inl ⟨.inl (.inr (.inr (.inl h))), hm x h⟩
          · exact .inl ⟨.inl (.inr (.inr (.inr h))), hr x h⟩
          · exact .inl ⟨.inr h, fun e => f.uncovered x h p (by simp) e.in⟩
        · rintro (⟨(rfl | h | h | h) | h, hs⟩ | ⟨s, hs, hs', -, rfl⟩)
          · exact absurd ⟨rfl, rfl⟩ hs
          · exact .inl (.inr (.inl h))
          · exact .inl (.inr (.inr (.inl h)))
          · exact .inl (.inr (.inr (.inr h)))
          · exact .inr h
          · obtain rfl := huniq s hs hs'
            exact .inl (.inl rfl)
  · push Not at hex
    refine ⟨t, by simp only [delbucket, looknode_none hlam hex], ot, fun x => ?_⟩
    constructor
    · exact fun h => .inl ⟨h, hex x h⟩
    · rintro (⟨h, -⟩ | ⟨s, hs, hs', -⟩)
      · exact h
      · exact absurd hs' (hex s hs)

/-! ## Looking up an address -/

/-- `r` contains the address `a`. -/
def Route.Has (r : Route α) (a : α) : Prop := r.address ≤ a ∧ a ≤ r.endaddress

/-- The loop of the two lookup functions, over the order of addresses. -/
def walk (la : α) : RouteTree α → Option (Route α) → Option (Route α)
  | .nil, q => q
  | .node p _ l m r, q =>
    if la < p.address then walk la l q
    else if p.endaddress < la then walk la r q
    else walk la m (some p)

/-- The most specific route of the tree that contains the address, or the route found so far. -/
theorem walk_spec (ot : Ordered t) (la : α) (q : Option (Route α)) :
    ((∀ s ∈ t.routes, ¬ s.Has la) ∧ walk la t q = q) ∨
      ∃ r ∈ t.routes, r.Has la ∧ (∀ s ∈ t.routes, s.Has la → r.In s) ∧ walk la t q = some r := by
  induction ot generalizing q with
  | nil => exact .inl ⟨by simp, rfl⟩
  | @node p d l m r range left mid right ol om or ihl ihm ihr =>
    have hl : ∀ s ∈ l.routes, s.Has la → la < p.address := fun s hs h => h.2.trans_lt (left s hs)
    have hr : ∀ s ∈ r.routes, s.Has la → p.endaddress < la :=
      fun s hs h => (right s hs).trans_le h.1
    have hm : ∀ s ∈ m.routes, s.Has la → p.Has la := fun s hs h => (mid s hs).1.mem h
    simp only [walk]
    split_ifs with h₁ h₂
    · rcases ihl q with ⟨hno, e⟩ | ⟨x, hx, hh, hin, e⟩
      · refine .inl ⟨fun s hs h => ?_, e⟩
        rcases mem_node.mp hs with rfl | hs | hs | hs
        · exact absurd h.1 (not_le.mpr h₁)
        · exact hno s hs h
        · exact absurd (hm s hs h).1 (not_le.mpr h₁)
        · exact absurd (range.trans (hr s hs h).le) (not_le.mpr h₁)
      · refine .inr ⟨x, by simp [hx], hh, fun s hs h => ?_, e⟩
        rcases mem_node.mp hs with rfl | hs | hs | hs
        · exact absurd h.1 (not_le.mpr h₁)
        · exact hin s hs h
        · exact absurd (hm s hs h).1 (not_le.mpr h₁)
        · exact absurd (range.trans (hr s hs h).le) (not_le.mpr h₁)
    · rcases ihr q with ⟨hno, e⟩ | ⟨x, hx, hh, hin, e⟩
      · refine .inl ⟨fun s hs h => ?_, e⟩
        rcases mem_node.mp hs with rfl | hs | hs | hs
        · exact absurd h.2 (not_le.mpr h₂)
        · exact h₁ (hl s hs h)
        · exact absurd (hm s hs h).2 (not_le.mpr h₂)
        · exact hno s hs h
      · refine .inr ⟨x, by simp [hx], hh, fun s hs h => ?_, e⟩
        rcases mem_node.mp hs with rfl | hs | hs | hs
        · exact absurd h.2 (not_le.mpr h₂)
        · exact absurd (hl s hs h) h₁
        · exact absurd (hm s hs h).2 (not_le.mpr h₂)
        · exact hin s hs h
    · have hp : p.Has la := ⟨not_lt.mp h₁, not_lt.mp h₂⟩
      rcases ihm (some p) with ⟨hno, e⟩ | ⟨x, hx, hh, hin, e⟩
      · refine .inr ⟨p, by simp, hp, fun s hs h => ?_, e⟩
        rcases mem_node.mp hs with rfl | hs | hs | hs
        · exact ⟨le_refl _, le_refl _⟩
        · exact absurd (hl s hs h) h₁
        · exact absurd h (hno s hs)
        · exact absurd (hr s hs h) h₂
      · refine .inr ⟨x, by simp [hx], hh, fun s hs h => ?_, e⟩
        rcases mem_node.mp hs with rfl | hs | hs | hs
        · exact (mid x hx).1
        · exact absurd (hl s hs h) h₁
        · exact hin s hs h
        · exact absurd (hr s hs h) h₂

end NixMark.Iproute
