import NixMark.Iproute.Bucket

/-!
# The routing table that the forest stands for

The abstract layer: a `Table` has at most one route for each prefix. Adding a route to a prefix
that has one is decided by `supercede` (an interface route counts its references, another route is
replaced); deleting takes one reference and removes the route with its last one. The forest is a
table cut into buckets: `Rep` says that each bucket's tree is ordered and holds the table's routes
whose hash range meets the bucket. Every `v4addroute`, `v6addroute`, `v4delroute` and `v6delroute`
of a contiguous mask ends and is the table's operation (`Rep.add`, `Rep.del`), and a lookup in the
address's bucket is a lookup in the table (`Rep.lookup`).
-/

namespace NixMark.Iproute

open Lib RouteTree

variable {α : Type} [LinearOrder α]

/-- The routes that are in force: at most one for each range. -/
def Table (α : Type) := α → α → Option (Route α)

namespace Table

/-- The table has the route `r`. -/
def Has (T : Table α) (r : Route α) : Prop := T r.address r.endaddress = some r

def empty : Table α := fun _ _ => none

/-- The table with `v` for the range `lo .. hi`. -/
def set (T : Table α) (lo hi : α) (v : Option (Route α)) : Table α :=
  fun a b => if a = lo ∧ b = hi then v else T a b

theorem set_self (T : Table α) (lo hi : α) (v : Option (Route α)) : T.set lo hi v lo hi = v :=
  if_pos ⟨rfl, rfl⟩

theorem set_ne (T : Table α) {lo hi a b : α} (v : Option (Route α)) (h : ¬ (a = lo ∧ b = hi)) :
    T.set lo hi v a b = T a b := if_neg h

/-- Add `new`; a route of the same range is superceded by it. -/
def add (T : Table α) (new : Route α) : Table α :=
  T.set new.address new.endaddress <| some <|
    match T new.address new.endaddress with
    | none => new
    | some old => supercede old new

/-- Take one reference from the route of the range `lo .. hi`. -/
def del (T : Table α) (lo hi : α) : Table α :=
  T.set lo hi <|
    match T lo hi with
    | none => none
    | some r => if r.ref - 1 = 0 then none else some { r with ref := r.ref - 1 }

/-- Adding does not change the routes of other ranges. -/
theorem has_add (T : Table α) (new : Route α) {s : Route α} (h : ¬ s.Same new) :
    (T.add new).Has s ↔ T.Has s := by
  unfold Has add
  rw [set_ne _ _ h]

/-- Deleting does not change the routes of other ranges. -/
theorem has_del (T : Table α) {lo hi : α} {s : Route α}
    (h : ¬ (s.address = lo ∧ s.endaddress = hi)) : (T.del lo hi).Has s ↔ T.Has s := by
  unfold Has del
  rw [set_ne _ _ h]

/-- `q` is the most specific route of the table that contains `a`; there is none if it is
`none`. -/
def MostSpecific (T : Table α) (a : α) : Option (Route α) → Prop
  | none => ∀ s, T.Has s → ¬ s.Has a
  | some r => T.Has r ∧ r.Has a ∧ ∀ s, T.Has s → s.Has a → r.In s

/-- The most specific route depends only on the routes that contain the address. -/
theorem MostSpecific.congr {T T' : Table α} {a : α} {q q' : Option (Route α)}
    (h : T.MostSpecific a q) (h' : T'.MostSpecific a q')
    (e : ∀ s : Route α, s.Has a → (T.Has s ↔ T'.Has s)) : q = q' := by
  rcases q with _ | r <;> rcases q' with _ | r'
  · rfl
  · exact absurd h'.2.1 (h r' ((e r' h'.2.1).mpr h'.1))
  · exact absurd h.2.1 (h' r ((e r h.2.1).mp h.1))
  · -- each lies in the other, so the ranges agree, and a table has one route of a range
    have h₁ := h.2.2 r' ((e r' h'.2.1).mpr h'.1) h'.2.1
    have h₂ := h'.2.2 r ((e r h.2.1).mp h.1) h.2.1
    obtain ⟨ea, eb⟩ := Route.same_of_in h₁ h₂
    have hr := h.1
    have hr' := (e r' h'.2.1).mpr h'.1
    unfold Has at hr hr'
    rw [ea, eb, hr'] at hr
    exact hr.symm

end Table

/-! ## The loop over the buckets -/

omit [LinearOrder α] in
theorem foldlM_update {body : RouteTree α → Option (RouteTree α)} {n h : Nat}
    {root : Nat → RouteTree α}
    (hb : ∀ k, h ≤ k → k < h + n → ∃ t, body (root k) = some t) :
    ∃ root', (List.range' h n).foldlM
        (fun root h => (body (root h)).map (Function.update root h)) root = some root' ∧
      ∀ k, (h ≤ k ∧ k < h + n → body (root k) = some (root' k)) ∧
        (¬ (h ≤ k ∧ k < h + n) → root' k = root k) := by
  induction n generalizing h root with
  | zero => exact ⟨root, rfl, fun k => ⟨fun hk => by omega, fun _ => rfl⟩⟩
  | succ n ih =>
    obtain ⟨t, ht⟩ := hb h le_rfl (by omega)
    have hne : ∀ k, h + 1 ≤ k → Function.update root h t k = root k := fun k hk =>
      Function.update_of_ne (by omega) _ _
    obtain ⟨root', e, hk⟩ := @ih (h + 1) (Function.update root h t)
      (fun k hk hk' => by rw [hne k hk]; exact hb k (by omega) (by omega))
    refine ⟨root', ?_, fun k => ⟨fun hr => ?_, fun hr => ?_⟩⟩
    · rw [List.range'_succ, List.foldlM_cons, ht]
      exact e
    · by_cases hkh : k = h
      · subst hkh
        rw [(hk k).2 (by omega), Function.update_self, ht]
      · have := (hk k).1 (by omega)
        rwa [hne k (by omega)] at this
    · rw [(hk k).2 (by omega), Function.update_of_ne (by omega)]

omit [LinearOrder α] in
/-- The buckets `h .. eh` are updated, the others stay. -/
theorem forbuckets_spec {body : RouteTree α → Option (RouteTree α)} (h eh : Nat)
    {root : Nat → RouteTree α} (hb : ∀ k, ∃ t, body (root k) = some t) :
    ∃ root', forbuckets h eh body root = some root' ∧
      ∀ k, (h ≤ k ∧ k ≤ eh → body (root k) = some (root' k)) ∧
        (¬ (h ≤ k ∧ k ≤ eh) → root' k = root k) := by
  obtain ⟨root', e, hk⟩ := foldlM_update (n := eh + 1 - h) (h := h) fun k _ _ => hb k
  exact ⟨root', e, fun k => ⟨fun hr => (hk k).1 (by omega), fun hr => (hk k).2 (by omega)⟩⟩

/-! ## The forest of a table -/

/-- Ranges that are nested or apart, with a hash that is monotone on each of them or covers it. -/
structure Family (P : α → α → Prop) (H : α → Nat) : Prop where
  le : ∀ {a b}, P a b → a ≤ b
  laminar : ∀ {a b c d}, P a b → P c d → Laminar a b c d
  hash : ∀ {a b x}, P a b → a ≤ x → x ≤ b → H a ≤ H x ∧ H x ≤ H b

/-- The trees `root` hold the table `T`: a route is in the buckets from the hash of its first
address to the hash of its last one. -/
structure Rep (P : α → α → Prop) (H : α → Nat) (T : Table α) (root : Nat → RouteTree α) :
    Prop where
  range : ∀ {a b r}, T a b = some r → P a b ∧ r.address = a ∧ r.endaddress = b
  ordered : ∀ h, Ordered (root h)
  mem : ∀ h x, x ∈ (root h).routes ↔ T.Has x ∧ H x.address ≤ h ∧ h ≤ H x.endaddress

section Rep

variable {P : α → α → Prop} {H : α → Nat} {T : Table α} {root : Nat → RouteTree α}

theorem Rep.empty : Rep P H (Table.empty : Table α) fun _ => .nil where
  range h := by simp [Table.empty] at h
  ordered _ := .nil
  mem h x := by simp [Table.Has, Table.empty]

theorem Rep.block (h : Rep P H T root) {k : Nat} {x : Route α} (hx : x ∈ (root k).routes) :
    P x.address x.endaddress := (h.range ((h.mem k x).mp hx).1).1

/-- Adding a route of the family updates its buckets, and the trees hold the table with the
route. -/
theorem Rep.add (F : Family P H) (h : Rep P H T root) (new : Route α)
    (hn : P new.address new.endaddress) :
    ∃ root', forbuckets (H new.address) (H new.endaddress) (addbucket new) root = some root' ∧
      Rep P H (T.add new) root' := by
  have spec := fun k => addbucket_spec (h.ordered k) (F.le hn)
    (fun s hs => F.laminar hn (h.block hs)) (fun s hs x hx => F.laminar (h.block hs) (h.block hx))
  obtain ⟨root', e, hk⟩ := forbuckets_spec (H new.address) (H new.endaddress)
    fun k => (spec k).imp fun _ hs => hs.1
  refine ⟨root', e, fun {a b r} hr => ?_, fun k => ?_, fun k x => ?_⟩
  · simp only [Table.add, Table.set] at hr
    split_ifs at hr with he
    · obtain ⟨rfl, rfl⟩ := he
      refine ⟨hn, ?_⟩
      cases ht : T new.address new.endaddress with
      | none =>
        rw [ht] at hr; cases hr
        exact ⟨rfl, rfl⟩
      | some old =>
        rw [ht] at hr; cases hr
        obtain ⟨-, e₁, e₂⟩ := h.range ht
        obtain ⟨s₁, s₂⟩ := supercede_range old new
        exact ⟨s₁.trans e₁, s₂.trans e₂⟩
    · exact h.range hr
  · by_cases hb : H new.address ≤ k ∧ k ≤ H new.endaddress
    · obtain ⟨t', et, o', -⟩ := spec k
      rw [(hk k).1 hb] at et; cases et
      exact o'
    · rw [(hk k).2 hb]; exact h.ordered k
  · by_cases hs : x.Same new
    · -- the route of the range of `new`
      obtain ⟨e₁, e₂⟩ := hs
      have hadd : (T.add new).Has x ↔ x = (match T new.address new.endaddress with
          | none => new
          | some old => supercede old new) := by
        unfold Table.Has Table.add
        rw [e₁, e₂, Table.set_self, Option.some.injEq, eq_comm]
      rw [hadd, e₁, e₂]
      by_cases hb : H new.address ≤ k ∧ k ≤ H new.endaddress
      · obtain ⟨t', et, -, hx⟩ := spec k
        rw [(hk k).1 hb] at et; cases et
        rw [hx]
        cases ht : T new.address new.endaddress with
        | none =>
          have hno : ∀ s ∈ (root k).routes, ¬ s.Same new := fun s hs he => by
            have := ((h.mem k s).mp hs).1
            unfold Table.Has at this
            rw [he.1, he.2, ht] at this; cases this
          constructor
          · rintro (⟨hm, hne⟩ | ⟨s, hs, he, -⟩ | ⟨-, rfl⟩)
            · exact absurd ⟨e₁, e₂⟩ hne
            · exact absurd he (hno s hs)
            · exact ⟨rfl, hb⟩
          · rintro ⟨rfl, -⟩
            exact .inr (.inr ⟨hno, rfl⟩)
        | some old =>
          obtain ⟨-, a₁, a₂⟩ := h.range ht
          have hold : old ∈ (root k).routes :=
            (h.mem k old).mpr ⟨by unfold Table.Has; rw [a₁, a₂, ht], by rw [a₁, a₂]; exact hb⟩
          constructor
          · rintro (⟨hm, hne⟩ | ⟨s, hs, he, rfl⟩ | ⟨hno, -⟩)
            · exact absurd ⟨e₁, e₂⟩ hne
            · have := ((h.mem k s).mp hs).1
              unfold Table.Has at this
              rw [he.1, he.2, ht] at this; cases this
              exact ⟨rfl, hb⟩
            · exact absurd ⟨a₁, a₂⟩ (hno old hold)
          · rintro ⟨rfl, -⟩
            exact .inr (.inl ⟨old, hold, ⟨a₁, a₂⟩, rfl⟩)
      · rw [(hk k).2 hb, h.mem, e₁, e₂]
        exact ⟨fun hm => absurd hm.2 hb, fun hm => absurd hm.2 hb⟩
    · -- the other routes stay
      rw [T.has_add new hs, ← h.mem]
      by_cases hb : H new.address ≤ k ∧ k ≤ H new.endaddress
      · obtain ⟨t', et, -, hx⟩ := spec k
        rw [(hk k).1 hb] at et; cases et
        rw [hx]
        constructor
        · rintro (⟨hm, -⟩ | ⟨s, -, he, rfl⟩ | ⟨-, rfl⟩)
          · exact hm
          · obtain ⟨s₁, s₂⟩ := supercede_range s new
            exact absurd ⟨s₁.trans he.1, s₂.trans he.2⟩ hs
          · exact absurd ⟨rfl, rfl⟩ hs
        · exact fun hm => .inl ⟨hm, hs⟩
      · rw [(hk k).2 hb]

/-- Deleting a range of the family updates its buckets, and the trees hold the table without one
reference of its route. -/
theorem Rep.del (F : Family P H) (h : Rep P H T root) {lo hi : α} (rt : Route α)
    (hrt : rt.address = lo ∧ rt.endaddress = hi) (hn : P lo hi) :
    ∃ root', forbuckets (H lo) (H hi) (delbucket rt) root = some root' ∧
      Rep P H (T.del lo hi) root' := by
  obtain ⟨rfl, rfl⟩ := hrt
  have spec := fun k => delbucket_spec (h.ordered k) (F.le hn)
    (fun s hs => F.laminar hn (h.block hs)) (fun s hs x hx => F.laminar (h.block hs) (h.block hx))
  obtain ⟨root', e, hk⟩ := forbuckets_spec (H rt.address) (H rt.endaddress)
    fun k => (spec k).imp fun _ hs => hs.1
  refine ⟨root', e, fun {a b r} hr => ?_, fun k => ?_, fun k x => ?_⟩
  · simp only [Table.del, Table.set] at hr
    split_ifs at hr with he
    · obtain ⟨rfl, rfl⟩ := he
      refine ⟨hn, ?_⟩
      cases ht : T rt.address rt.endaddress with
      | none => rw [ht] at hr; cases hr
      | some old =>
        simp only [ht] at hr
        split_ifs at hr
        cases hr
        exact (h.range ht).2
    · exact h.range hr
  · by_cases hb : H rt.address ≤ k ∧ k ≤ H rt.endaddress
    · obtain ⟨t', et, o', -⟩ := spec k
      rw [(hk k).1 hb] at et; cases et
      exact o'
    · rw [(hk k).2 hb]; exact h.ordered k
  · by_cases hs : x.Same rt
    · -- the route of the deleted range
      obtain ⟨e₁, e₂⟩ := hs
      have hdel : (T.del rt.address rt.endaddress).Has x ↔
          ∃ old, T rt.address rt.endaddress = some old ∧ old.ref - 1 ≠ 0 ∧
            x = { old with ref := old.ref - 1 } := by
        unfold Table.Has Table.del
        rw [e₁, e₂, Table.set_self]
        cases T rt.address rt.endaddress with
        | none => simp
        | some old =>
          simp only [Option.some.injEq, exists_eq_left']
          split_ifs with hr
          · exact ⟨fun h => absurd h (by simp), fun h => absurd hr h.1⟩
          · exact ⟨fun h => ⟨hr, (Option.some.inj h).symm⟩, fun h => congrArg some h.2.symm⟩
      rw [hdel, e₁, e₂]
      by_cases hb : H rt.address ≤ k ∧ k ≤ H rt.endaddress
      · obtain ⟨t', et, -, hx⟩ := spec k
        rw [(hk k).1 hb] at et; cases et
        rw [hx]
        constructor
        · rintro (⟨hm, hne⟩ | ⟨s, hs, he, hr, rfl⟩)
          · exact absurd ⟨e₁, e₂⟩ hne
          · have := ((h.mem k s).mp hs).1
            unfold Table.Has at this
            rw [he.1, he.2] at this
            exact ⟨⟨s, this, hr, rfl⟩, hb⟩
        · rintro ⟨⟨old, ht, hr, rfl⟩, -⟩
          obtain ⟨-, a₁, a₂⟩ := h.range ht
          exact .inr ⟨old, (h.mem k old).mpr ⟨by unfold Table.Has; rw [a₁, a₂, ht],
            by rw [a₁, a₂]; exact hb⟩, ⟨a₁, a₂⟩, hr, rfl⟩
      · rw [(hk k).2 hb, h.mem, e₁, e₂]
        exact ⟨fun hm => absurd hm.2 hb, fun hm => absurd hm.2 hb⟩
    · -- the other routes stay
      rw [T.has_del hs, ← h.mem]
      by_cases hb : H rt.address ≤ k ∧ k ≤ H rt.endaddress
      · obtain ⟨t', et, -, hx⟩ := spec k
        rw [(hk k).1 hb] at et; cases et
        rw [hx]
        constructor
        · rintro (⟨hm, -⟩ | ⟨s, -, he, -, rfl⟩)
          · exact hm
          · exact absurd he hs
        · exact fun hm => .inl ⟨hm, hs⟩
      · rw [(hk k).2 hb]

/-- The lookup in the bucket of an address finds the table's most specific route. -/
theorem Rep.lookup (F : Family P H) (h : Rep P H T root) (la : α) :
    T.MostSpecific la (walk la (root (H la)) none) := by
  have hmem : ∀ s, T.Has s → s.Has la → s ∈ (root (H la)).routes := fun s hs hl =>
    (h.mem _ s).mpr ⟨hs, F.hash (h.range hs).1 hl.1 hl.2⟩
  rcases walk_spec (h.ordered (H la)) la none with ⟨hno, e⟩ | ⟨r, hr, hh, hin, e⟩
  · rw [e]
    exact fun s hs hl => hno s (hmem s hs hl) hl
  · rw [e]
    exact ⟨((h.mem _ r).mp hr).1, hh, fun s hs hl => hin s (hmem s hs hl) hl⟩

end Rep

end NixMark.Iproute
