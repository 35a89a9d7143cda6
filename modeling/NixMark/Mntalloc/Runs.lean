import NixMark.Mntalloc.Conserve

/-!
# Runs of the tag allocator

`Sys` is the allocator with what the callers hold: the rpcs in use, and for the statement which of
them were allocated in one group (`group`) and which without a tag (`notag`). `Books` are the tags
and their owners, `Groups` the groups and the links of the rpcs in use; both are kept by every step
that is `Sound`.
-/

namespace NixMark.Mntalloc

open Lib

/-! ## The books -/

/-- The tags that are never allocated. -/
def Reserved (t : Nat) : Prop := t = 0 ∨ t = NOTAG

/-- The rpc `r` owns the tag `t`. -/
def Alloc.Owns (m : Alloc) (r : Rpc) (t : Nat) : Prop :=
  (m.rpc r).owntag = true ∧ (m.rpc r).tag = t

/-- The tags marked are the reserved ones and those that an rpc in the set owns, each of them one. -/
structure Books (all : Rpc → Prop) (m : Alloc) : Prop where
  busy : ∀ t, busy m.tagmask t = true ↔ Reserved t ∨ ∃ r, all r ∧ m.Owns r t
  apart : ∀ r t, all r → m.Owns r t → ¬Reserved t
  owner : ∀ r r' t, all r → all r' → m.Owns r t → m.Owns r' t → r = r'

variable {all all' : Rpc → Prop} {m m' : Alloc}

/-- The books of two states whose owners are the same. -/
theorem Books.congr (h : Books all m) (hm : m'.tagmask = m.tagmask)
    (ho : ∀ r t, all' r ∧ m'.Owns r t ↔ all r ∧ m.Owns r t) : Books all' m' where
  busy t := by
    rw [hm, h.busy]
    simp only [ho]
  apart r t hr hot :=
    have ⟨h1, h2⟩ := (ho r t).mp ⟨hr, hot⟩
    h.apart r t h1 h2
  owner r r' t hr hr' hot hot' :=
    have ⟨h1, h2⟩ := (ho r t).mp ⟨hr, hot⟩
    have ⟨h3, h4⟩ := (ho r' t).mp ⟨hr', hot'⟩
    h.owner r r' t h1 h3 h2 h4

theorem SameTags.owns (h : SameTags m m') (r : Rpc) (t : Nat) : m'.Owns r t ↔ m.Owns r t := by
  unfold Alloc.Owns
  rw [(h r).1, (h r).2]

variable {new : Rpc} {t : Nat}

/-- An rpc without an owned tag gets the tag `t`, which was free. -/
theorem Books.settag (h : Books all m) (hnew : all new) (hown : (m.rpc new).owntag = false)
    (ht : Mntalloc.busy m.tagmask t = false) (hm : m'.tagmask = settag m.tagmask t)
    (hn : m'.Owns new t) (ho : ∀ x ≠ new, m'.rpc x = m.rpc x) : Books all m' := by
  have hfree : ∀ r, all r → ¬m.Owns r t := fun r hr hot => by
    have := (h.busy t).mpr (.inr ⟨r, hr, hot⟩)
    rw [ht] at this
    cases this
  have hres : ¬Reserved t := fun hr => by
    have := (h.busy t).mpr (.inl hr)
    rw [ht] at this
    cases this
  have hiff : ∀ r u, m'.Owns r u ↔ (r = new ∧ u = t) ∨ (r ≠ new ∧ m.Owns r u) := by
    intro r u
    by_cases hr : r = new
    · rw [hr]
      refine ⟨fun hu => .inl ⟨rfl, hu.2.symm.trans hn.2⟩, ?_⟩
      rintro (⟨-, rfl⟩ | ⟨hne, -⟩)
      · exact hn
      · exact absurd rfl hne
    · unfold Alloc.Owns
      rw [ho r hr]
      exact ⟨fun hu => .inr ⟨hr, hu⟩, fun hu => hu.elim (fun h => absurd h.1 hr) (·.2)⟩
  have hold : ∀ u, ¬m.Owns new u := fun u hu => by
    have := hu.1
    rw [hown] at this
    cases this
  refine ⟨fun u => ?_, fun r u hr hu => ?_, fun r r' u hr hr' hu hu' => ?_⟩
  · rw [hm, busy_settag, Bool.or_eq_true, h.busy, decide_eq_true_iff]
    constructor
    · rintro ((hu | ⟨r, hr, hu⟩) | rfl)
      · exact .inl hu
      · exact .inr ⟨r, hr, (hiff r u).mpr (.inr ⟨fun e => hold u (e ▸ hu), hu⟩)⟩
      · exact .inr ⟨new, hnew, hn⟩
    · rintro (hu | ⟨r, hr, hu⟩)
      · exact .inl (.inl hu)
      · rcases (hiff r u).mp hu with ⟨-, rfl⟩ | ⟨-, hu⟩
        · exact .inr rfl
        · exact .inl (.inr ⟨r, hr, hu⟩)
  · rcases (hiff r u).mp hu with ⟨-, rfl⟩ | ⟨-, hu⟩
    · exact hres
    · exact h.apart r u hr hu
  · rcases (hiff r u).mp hu with ⟨rfl, rfl⟩ | ⟨-, hu⟩ <;>
      rcases (hiff r' _).mp hu' with ⟨rfl, hut⟩ | ⟨-, hu'⟩
    · rfl
    · exact absurd hu' (hfree r' hr')
    · exact absurd (hut ▸ hu) (hfree r hr)
    · exact h.owner r r' u hr hr' hu hu'

/-- An rpc gives up the tag that it owns. -/
theorem Books.freetag (h : Books all m) (hnew : all new) (hown : m.Owns new t)
    (hm : m'.tagmask = freetag m.tagmask t) (hn : (m'.rpc new).owntag = false)
    (ho : ∀ x ≠ new, m'.rpc x = m.rpc x) : Books all m' := by
  have hiff : ∀ r u, m'.Owns r u ↔ r ≠ new ∧ m.Owns r u := by
    intro r u
    by_cases hr : r = new
    · rw [hr]
      refine ⟨fun hu => ?_, fun hu => absurd rfl hu.1⟩
      have := hu.1
      rw [hn] at this
      cases this
    · unfold Alloc.Owns
      rw [ho r hr]
      exact ⟨fun hu => ⟨hr, hu⟩, (·.2)⟩
  refine ⟨fun u => ?_, fun r u hr hu => h.apart r u hr ((hiff r u).mp hu).2,
    fun r r' u hr hr' hu hu' => h.owner r r' u hr hr' ((hiff r u).mp hu).2 ((hiff r' u).mp hu').2⟩
  rw [hm, busy_freetag, Bool.and_eq_true, h.busy, Bool.not_eq_true', decide_eq_false_iff_not]
  constructor
  · rintro ⟨hu | ⟨r, hr, hu⟩, hne⟩
    · exact .inl hu
    · refine .inr ⟨r, hr, (hiff r u).mpr ⟨?_, hu⟩⟩
      rintro rfl
      exact hne (hu.2.symm.trans hown.2)
  · rintro (hu | ⟨r, hr, hu⟩)
    · exact ⟨.inl hu, fun he => h.apart new t hnew hown (he ▸ hu)⟩
    · obtain ⟨hne, hu⟩ := (hiff r u).mp hu
      exact ⟨.inr ⟨r, hr, hu⟩, fun he => hne (h.owner r new t hr hnew (he ▸ hu) hown)⟩

variable {r : Rpc}

/-- The owner `r` passes its tag to `n`. -/
theorem Books.pass (h : Books all m) {n : Rpc} (hr : all r) (hn : all n) (hown : m.Owns r t)
    (hne : n ≠ r) (hm : m'.tagmask = m.tagmask) (hn' : m'.Owns n t)
    (hr' : (m'.rpc r).owntag = false) (hold : (m.rpc n).tag = t)
    (ho : ∀ x, x ≠ r → x ≠ n → m'.rpc x = m.rpc x) : Books all m' := by
  have hnot : ∀ u, ¬m.Owns n u := fun u hu => by
    have : u = t := hu.2.symm.trans hold
    exact hne (h.owner n r t hn hr (this ▸ hu) hown)
  have hiff : ∀ x u, m'.Owns x u ↔ (x = n ∧ u = t) ∨ (x ≠ n ∧ x ≠ r ∧ m.Owns x u) := by
    intro x u
    by_cases hxn : x = n
    · rw [hxn]
      refine ⟨fun hu => .inl ⟨rfl, hu.2.symm.trans hn'.2⟩, ?_⟩
      rintro (⟨-, rfl⟩ | ⟨h1, -⟩)
      · exact hn'
      · exact absurd rfl h1
    · by_cases hxr : x = r
      · rw [hxr]
        refine ⟨fun hu => ?_, ?_⟩
        · have := hu.1
          rw [hr'] at this
          cases this
        · rintro (⟨h1, -⟩ | ⟨-, h1, -⟩)
          · exact absurd h1.symm hne
          · exact absurd rfl h1
      · unfold Alloc.Owns
        rw [ho x hxr hxn]
        exact ⟨fun hu => .inr ⟨hxn, hxr, hu⟩, fun hu => hu.elim (fun h => absurd h.1 hxn) (·.2.2)⟩
  refine ⟨fun u => ?_, fun x u hx hu => ?_, fun x x' u hx hx' hu hu' => ?_⟩
  · rw [hm, h.busy]
    refine or_congr_right ⟨?_, ?_⟩
    · rintro ⟨x, hx, hu⟩
      by_cases hxr : x = r
      · have : u = t := hu.2.symm.trans (hxr ▸ hown.2)
        exact ⟨n, hn, this ▸ hn'⟩
      · exact ⟨x, hx, (hiff x u).mpr (.inr ⟨fun e => hnot u (e ▸ hu), hxr, hu⟩)⟩
    · rintro ⟨x, hx, hu⟩
      rcases (hiff x u).mp hu with ⟨-, rfl⟩ | ⟨-, -, hu⟩
      · exact ⟨r, hr, hown⟩
      · exact ⟨x, hx, hu⟩
  · rcases (hiff x u).mp hu with ⟨-, rfl⟩ | ⟨-, -, hu⟩
    · exact h.apart r u hr hown
    · exact h.apart x u hx hu
  · rcases (hiff x u).mp hu with ⟨rfl, rfl⟩ | ⟨-, hxr, hu⟩ <;>
      rcases (hiff x' _).mp hu' with ⟨rfl, hut⟩ | ⟨-, hxr', hu'⟩
    · rfl
    · exact absurd (h.owner x' r _ hx' hr hu' hown) hxr'
    · exact absurd (h.owner x r _ hx hr (hut ▸ hu) hown) hxr
    · exact h.owner x x' u hx hx' hu hu'

/-! ## The steps -/

structure Sys where
  m : Alloc
  used : List Rpc
  /-- the group in which an rpc was allocated: rpcs allocated sharing are in the group of the
  previous rpc -/
  group : Rpc → Nat
  /-- the rpc was allocated for a version message -/
  notag : Rpc → Bool
  clock : Nat

/-- The group of an rpc allocated with these arguments. -/
def Sys.groupof (s : Sys) (prev : Option Rpc) (sharetags : Int) : Nat :=
  match prev with
  | some p => if 0 < sharetags then s.group p else s.clock
  | none => s.clock

def Sys.allocated (s : Sys) (m : Alloc) (new : Rpc) (prev : Option Rpc) (sharetags : Int) : Sys where
  m := m
  used := new :: s.used
  group := Function.update s.group new (s.groupof prev sharetags)
  notag := Function.update s.notag new (sharetags < 0)
  clock := s.clock + 1

/-- The rpcs in use and those on the free list. -/
def Sys.Known (s : Sys) (r : Rpc) : Prop := r ∈ s.used ++ s.m.rpcfree

/-- The rpc is the first of its chain. -/
def Sys.First (s : Sys) (r : Rpc) : Prop := ∀ x ∈ s.used, s.m.next x ≠ some r

inductive Op where
  | alloc (prev : Option Rpc) (msize : Nat) (sharetags : Int) (mem : Option Rpc) (buf : Bool)
  | link (prev r : Rpc)
  | pass (r : Rpc)
  | free (r : Rpc)
deriving DecidableEq, Repr

/-- The calls: their arguments are rpcs in use, `malloc` returns memory that is no rpc, what is
linked or freed is the first of its chain. -/
def Step (maxrpc : Nat) (s : Sys) : Op → Sys → Prop
  | .alloc prev msize sharetags mem buf, s' =>
    (∀ p, prev = some p → p ∈ s.used) ∧ (∀ x, mem = some x → ¬s.Known x) ∧
    ((∃ m new, mntralloc maxrpc s.m prev msize sharetags mem buf = some (m, some new) ∧
        s' = s.allocated m new prev sharetags) ∨
      ∃ m, mntralloc maxrpc s.m prev msize sharetags mem buf = some (m, none) ∧
        s' = { s with m := m })
  | .link prev r, s' =>
    prev ∈ s.used ∧ r ∈ s.used ∧ prev ≠ r ∧ s.First r ∧ s' = { s with m := linkrpc s.m prev r }
  | .pass r, s' => r ∈ s.used ∧ s' = { s with m := passtag s.m r }
  | .free r, s' =>
    r ∈ s.used ∧ s.First r ∧ ∃ n m, mntfree n s.m r = some m ∧
      s' = { s with m := m, used := s.used.filter fun x => decide (x ∉ m.rpcfree) }

def lts (maxrpc : Nat) : Lts Sys Op where
  init s := s.m = mntreset ∧ s.used = []
  step := Step maxrpc

/-- The rpc on the free list that `mntralloc` takes does not lose a tag; a previous rpc whose tag is
shared has one, and so has an rpc that is linked; a chain is not freed before rpcs that have the
tag of one of its owners. -/
def Sound (s : Sys) : Op → Prop
  | .alloc prev msize sharetags _ buf =>
    (∀ p, prev = some p → 0 < sharetags → s.notag p = false) ∧
    ∀ x rest, s.m.rpcfree = x :: rest →
      sharetags < 0 ∨ (s.m.rpc x).rpclen < msize ∧ buf = false → (s.m.rpc x).owntag = false
  | .link _ r => s.notag r = false
  | .pass _ => True
  | .free r => ∀ o, Follows s.m.next (some r) o → (s.m.rpc o).owntag = true →
      ∀ x ∈ s.used, ¬Follows s.m.next (some r) x → s.notag x = false →
        (s.m.rpc x).tag ≠ (s.m.rpc o).tag

/-! ## The groups -/

/-- What holds of the rpcs in use: each that has a tag has an owner of it in its group. -/
structure Groups (s : Sys) : Prop where
  nodup : (s.used ++ s.m.rpcfree).Nodup
  shared : ∀ r ∈ s.used, s.notag r = false →
    ∃ o ∈ s.used, s.m.Owns o (s.m.rpc r).tag ∧ s.group o = s.group r
  bare : ∀ r ∈ s.used, s.notag r = true → (s.m.rpc r).owntag = false
  next : ∀ r ∈ s.used, ∀ n, s.m.next r = some n → n ∈ s.used ∧ n ≠ r ∧ s.notag n = false
  inj : ∀ r ∈ s.used, ∀ r' ∈ s.used, ∀ n, s.m.next r = some n → s.m.next r' = some n → r = r'
  free : ∀ r ∈ s.m.rpcfree, s.m.next r = none

/-- The invariant. -/
structure Inv (s : Sys) : Prop where
  books : Books s.Known s.m
  groups : Groups s

/-! ## mntralloc -/

/-- What `getrpc` does when it gets a header: it takes the first one of the free list, or a new
one. -/
inductive Got (s : Alloc) (mem : Option Rpc) (s₁ : Alloc) (new : Rpc) : Prop where
  | old (h : s.rpcfree = new :: s₁.rpcfree) (hs : SameTags s s₁) (hn : ∀ x, s₁.next x = s.next x)
      (hm : s₁.tagmask = s.tagmask)
  | fresh (h : s.rpcfree = []) (hmem : mem = some new) (h₁ : s₁.rpcfree = [])
      (hs : ∀ x ≠ new, s₁.rpc x = s.rpc x) (ho : (s₁.rpc new).owntag = false)
      (hn : s₁.next new = none) (hm : s₁.tagmask = s.tagmask)

theorem SameTags.next_set {s : Alloc} {y : Mntrpc} (h : y.tagnext = (s.rpc r).tagnext) (x : Rpc) :
    (s.set r y).next x = s.next x := by
  show ((s.set r y).rpc x).tagnext = _
  rw [set_rpc]
  split
  · rename_i hx
    rw [hx, h]
    rfl
  · rfl

variable {maxrpc msize : Nat} {mem : Option Rpc} {buf : Bool}

theorem getrpc_some {s s₁ : Alloc} (h : getrpc maxrpc s msize mem buf = (s₁, some new)) :
    Got s mem s₁ new := by
  unfold getrpc at h
  split at h
  · rename_i hf
    split at h
    · cases h
    · rename_i new'
      split at h
      · cases h
        refine .fresh hf rfl hf (fun x hx => ?_) ?_ ?_ rfl
        · rw [set_rpc, if_neg hx]
        · rw [set_rpc, if_pos rfl]
        · show ((s.set _ _).rpc _).tagnext = none
          rw [set_rpc, if_pos rfl]
      · cases h
  · rename_i new' rest hf
    dsimp only at h
    split at h
    · split at h
      · cases h
        exact .old hf (.set { s with rpcfree := rest } _ rfl rfl)
          (SameTags.next_set (s := { s with rpcfree := rest }) rfl) rfl
      · cases h
    · cases h
      exact .old hf (fun _ => ⟨rfl, rfl⟩) (fun _ => rfl) rfl

theorem getrpc_none {s s₁ : Alloc} (h : getrpc maxrpc s msize mem buf = (s₁, none)) :
    s₁ = s ∨ ∃ x, s.rpcfree = x :: s₁.rpcfree ∧ s₁.rpc = s.rpc ∧ s₁.tagmask = s.tagmask ∧
      (s.rpc x).rpclen < msize ∧ buf = false := by
  unfold getrpc at h
  split at h
  · split at h
    · cases h
      exact .inl rfl
    · split at h
      · cases h
      · cases h
        exact .inl rfl
  · rename_i x rest hf
    dsimp only at h
    split at h
    · rename_i hlt
      split at h
      · cases h
      · rename_i hb
        cases h
        exact .inr ⟨x, hf, rfl, rfl, hlt, Bool.eq_false_of_not_eq_true hb⟩
    · cases h

/-- What `tagrpc` does: no tag, the tag of the previous rpc, the tag that the rpc owns, or a new
one. -/
inductive Tagged (s : Alloc) (new : Rpc) (prev : Option Rpc) (sharetags : Int) (s' : Alloc) : Prop
  | bare (h : sharetags < 0) (ho : (s'.rpc new).owntag = false) (hm : s'.tagmask = s.tagmask)
  | shared (p : Rpc) (hp : prev = some p) (h : 0 < sharetags)
      (ht : (s'.rpc new).tag = (s.rpc p).tag) (ho : (s'.rpc new).owntag = false)
      (hm : s'.tagmask = if (s.rpc new).owntag ∧ (s.rpc new).tag ≠ (s.rpc p).tag then
        freetag s.tagmask (s.rpc new).tag else s.tagmask)
  | kept (h : 0 ≤ sharetags) (ho : (s.rpc new).owntag = true) (he : s' = s)
  | fresh (h : 0 ≤ sharetags) (t : Nat) (ho : (s.rpc new).owntag = false)
      (ht : alloctag s.tagmask = some t) (hn : s'.Owns new t) (hm : s'.tagmask = settag s.tagmask t)

variable {prev : Option Rpc} {sharetags : Int}

theorem owntag_some {s s' : Alloc} (h0 : 0 ≤ sharetags) (h : tagrpc.owntag s new = some s') :
    (∀ x ≠ new, s'.rpc x = s.rpc x) ∧ (∀ x, s'.next x = s.next x) ∧ s'.rpcfree = s.rpcfree ∧
    Tagged s new prev sharetags s' := by
  unfold tagrpc.owntag at h
  split at h
  · rename_i ho
    cases h
    exact ⟨fun _ _ => rfl, fun _ => rfl, rfl, .kept h0 ho rfl⟩
  · rename_i ho
    obtain ⟨t, ht, rfl⟩ := Option.map_eq_some_iff.mp h
    refine ⟨fun x hx => (set_rpc s new _ x).trans (if_neg hx), SameTags.next_set rfl, rfl,
      .fresh h0 t (Bool.eq_false_of_not_eq_true ho) ht ?_ rfl⟩
    show ((s.set new _).rpc new).owntag = true ∧ ((s.set new _).rpc new).tag = t
    rw [set_rpc, if_pos rfl]
    exact ⟨rfl, rfl⟩

theorem tagrpc_some {s s' : Alloc} (h : tagrpc s new prev sharetags = some s') :
    (∀ x ≠ new, s'.rpc x = s.rpc x) ∧ (∀ x, s'.next x = s.next x) ∧ s'.rpcfree = s.rpcfree ∧
    Tagged s new prev sharetags s' := by
  unfold tagrpc at h
  split at h
  · rename_i hneg
    cases h
    refine ⟨fun x hx => (set_rpc s new _ x).trans (if_neg hx), SameTags.next_set rfl, rfl,
      .bare hneg ?_ rfl⟩
    rw [set_rpc, if_pos rfl]
  · rename_i hneg
    have h0 : 0 ≤ sharetags := Int.not_lt.mp hneg
    split at h
    · rename_i p
      split at h
      · rename_i hne
        cases h
        refine ⟨fun x hx => (set_rpc s new _ x).trans (if_neg hx), SameTags.next_set rfl, rfl,
          .shared p rfl (by omega) ?_ ?_ rfl⟩
        · show ((s.set new _).rpc new).tag = _
          rw [set_rpc, if_pos rfl]
        · show ((s.set new _).rpc new).owntag = _
          rw [set_rpc, if_pos rfl]
      · exact owntag_some h0 h
    · exact owntag_some h0 h

/-! ## What the steps keep -/

variable {s s' : Sys}

theorem Sys.known_used (h : r ∈ s.used) : s.Known r := List.mem_append_left _ h

/-- The owner of a tag that an rpc in use has is in use. -/
theorem Inv.owner_used (h : Inv s) {x : Rpc} (hr : r ∈ s.used) (ht : s.notag r = false)
    (hx : s.Known x) (ho : s.m.Owns x (s.m.rpc r).tag) : x ∈ s.used ∧ s.group x = s.group r := by
  obtain ⟨o, hou, hot, hog⟩ := h.groups.shared r hr ht
  rw [h.books.owner x o _ hx (Sys.known_used hou) ho hot]
  exact ⟨hou, hog⟩

/-- What is known once `getrpc` has given the header `new`. -/
structure Taken (s : Sys) (m : Alloc) (new : Rpc) : Prop where
  unused : new ∉ s.used
  nodup : (new :: s.used ++ m.rpcfree).Nodup
  books : Books (fun r => r ∈ new :: s.used ++ m.rpcfree) m
  same : ∀ r ∈ s.used, (m.rpc r).tag = (s.m.rpc r).tag ∧ (m.rpc r).owntag = (s.m.rpc r).owntag ∧
    m.next r = s.m.next r
  next : m.next new = none
  free : ∀ r ∈ m.rpcfree, m.next r = none
  own : (m.rpc new).owntag = true → s.m.rpcfree = new :: m.rpcfree ∧
    (s.m.rpc new).owntag = true ∧ (m.rpc new).tag = (s.m.rpc new).tag

theorem Got.taken (h : Inv s) {m : Alloc} (hg : Got s.m mem m new)
    (hmem : ∀ x, mem = some x → ¬s.Known x) : Taken s m new := by
  cases hg with
  | old hf hs hn hm =>
    have hnd := h.groups.nodup
    rw [hf] at hnd
    have hnd' : (new :: s.used ++ m.rpcfree).Nodup := by
      rw [List.cons_append]
      exact List.perm_middle.nodup hnd
    have hmem : ∀ r, r ∈ new :: s.used ++ m.rpcfree ↔ s.Known r := by
      intro r
      rw [Sys.Known, hf, List.cons_append]
      exact List.perm_middle.symm.mem_iff
    have hunused : new ∉ s.used := fun hu =>
      (List.nodup_cons.mp (List.cons_append ▸ hnd')).1 (List.mem_append_left _ hu)
    refine ⟨hunused, hnd', ?_, fun r _ => ⟨(hs r).1, (hs r).2, hn r⟩, ?_, fun r hr => ?_,
      fun ho => ⟨hf, (hs new).2 ▸ ho, (hs new).1⟩⟩
    · exact h.books.congr hm fun r t => by rw [hmem, hs.owns]
    · rw [hn]
      exact h.groups.free new (hf ▸ List.mem_cons_self)
    · rw [hn]
      exact h.groups.free r (hf ▸ List.mem_cons_of_mem _ hr)
  | fresh hf hm₀ hf₁ hs ho hn hm =>
    have hnew : ¬s.Known new := hmem new hm₀
    have hunused : new ∉ s.used := fun hu => hnew (Sys.known_used hu)
    have hnd := h.groups.nodup
    rw [hf, List.append_nil] at hnd
    have hrec : ∀ r ∈ s.used, m.rpc r = s.m.rpc r := fun r hr =>
      hs r (ne_of_mem_of_not_mem hr hunused)
    refine ⟨hunused, ?_, ?_, fun r hr => ?_, hn, ?_, fun hot => ?_⟩
    · rw [hf₁, List.append_nil]
      exact List.nodup_cons.mpr ⟨hunused, hnd⟩
    · refine h.books.congr hm fun r t => ?_
      rw [hf₁, List.append_nil, Sys.Known, hf, List.append_nil, List.mem_cons]
      constructor
      · rintro ⟨rfl | hr, hot⟩
        · have := hot.1
          rw [ho] at this
          cases this
        · exact ⟨hr, by unfold Alloc.Owns at *; rwa [← hrec r hr]⟩
      · rintro ⟨hr, hot⟩
        exact ⟨.inr hr, by unfold Alloc.Owns at *; rwa [hrec r hr]⟩
    · have : m.next r = s.m.next r := congrArg Mntrpc.tagnext (hrec r hr)
      rw [hrec r hr]
      exact ⟨rfl, rfl, this⟩
    · rw [hf₁]
      exact fun r hr => absurd hr List.not_mem_nil
    · rw [ho] at hot
      cases hot

theorem Groups.allocated (h : Groups s) {m m' : Alloc} (ht : Taken s m new)
    (hrec : ∀ x ≠ new, m'.rpc x = m.rpc x) (hnext : ∀ x, m'.next x = m.next x)
    (hfree : m'.rpcfree = m.rpcfree) (prev : Option Rpc)
    (hneg : sharetags < 0 → (m'.rpc new).owntag = false)
    (hown : 0 ≤ sharetags → m'.Owns new (m'.rpc new).tag ∨
      ∃ o ∈ s.used, m'.Owns o (m'.rpc new).tag ∧ s.group o = s.groupof prev sharetags) :
    Groups (s.allocated m' new prev sharetags) := by
  have hne : ∀ r ∈ s.used, r ≠ new := fun r hr => ne_of_mem_of_not_mem hr ht.unused
  have hold : ∀ r ∈ s.used, (m'.rpc r).tag = (s.m.rpc r).tag ∧
      (m'.rpc r).owntag = (s.m.rpc r).owntag ∧ m'.next r = s.m.next r := by
    intro r hr
    rw [hrec r (hne r hr), hnext]
    exact ht.same r hr
  have hgroup : ∀ r ∈ s.used,
      (s.allocated m' new prev sharetags).group r = s.group r := fun r hr =>
    Function.update_of_ne (hne r hr) _ _
  have hnotag : ∀ r ∈ s.used,
      (s.allocated m' new prev sharetags).notag r = s.notag r := fun r hr =>
    Function.update_of_ne (hne r hr) _ _
  have hgnew : (s.allocated m' new prev sharetags).group new = s.groupof prev sharetags :=
    Function.update_self _ _ _
  have hnnew : (s.allocated m' new prev sharetags).notag new = decide (sharetags < 0) :=
    Function.update_self _ _ _
  have hnone : m'.next new = none := (hnext new).trans ht.next
  refine ⟨?_, fun r hr hn => ?_, fun r hr hn => ?_, fun r hr n hn => ?_,
    fun r hr r' hr' n hn hn' => ?_, fun r hr => ?_⟩
  · show (new :: s.used ++ m'.rpcfree).Nodup
    rw [hfree]
    exact ht.nodup
  · rcases List.mem_cons.mp hr with rfl | hr
    · rw [hnnew] at hn
      rcases hown (Int.not_lt.mp (of_decide_eq_false hn)) with ho | ⟨o, ho, hot, hog⟩
      · exact ⟨r, List.mem_cons_self, ho, rfl⟩
      · exact ⟨o, List.mem_cons_of_mem _ ho, hot, by rw [hgroup o ho, hgnew, hog]⟩
    · rw [hnotag r hr] at hn
      obtain ⟨o, ho, hot, hog⟩ := h.shared r hr hn
      refine ⟨o, List.mem_cons_of_mem _ ho, ?_, by rw [hgroup o ho, hgroup r hr, hog]⟩
      show m'.Owns o (m'.rpc r).tag
      unfold Alloc.Owns at *
      rw [(hold r hr).1, (hold o ho).1, (hold o ho).2.1]
      exact hot
  · rcases List.mem_cons.mp hr with rfl | hr
    · rw [hnnew] at hn
      exact hneg (of_decide_eq_true hn)
    · rw [hnotag r hr] at hn
      exact (hold r hr).2.1.trans (h.bare r hr hn)
  · rcases List.mem_cons.mp hr with rfl | hr
    · cases hnone.symm.trans hn
    · obtain ⟨h1, h2, h3⟩ := h.next r hr n ((hold r hr).2.2.symm.trans hn)
      exact ⟨List.mem_cons_of_mem _ h1, h2, (hnotag n h1).trans h3⟩
  · rcases List.mem_cons.mp hr with rfl | hr
    · cases hnone.symm.trans hn
    · rcases List.mem_cons.mp hr' with rfl | hr'
      · cases hnone.symm.trans hn'
      · exact h.inj r hr r' hr' n ((hold r hr).2.2.symm.trans hn) ((hold r' hr').2.2.symm.trans hn')
  · have hr : r ∈ m'.rpcfree := hr
    rw [hfree] at hr
    exact (hnext r).trans (ht.free r hr)

/-- `mntralloc` that gives an rpc. -/
theorem Inv.allocated (h : Inv s) {m m' : Alloc} (ht : Taken s m new) (prev : Option Rpc)
    (hg : Tagged m new prev sharetags m') (hrec : ∀ x ≠ new, m'.rpc x = m.rpc x)
    (hnext : ∀ x, m'.next x = m.next x) (hfree : m'.rpcfree = m.rpcfree)
    (hprev : ∀ p, prev = some p → p ∈ s.used)
    (htag : ∀ p, prev = some p → 0 < sharetags → s.notag p = false)
    (hneg : sharetags < 0 → (m.rpc new).owntag = false) :
    Inv (s.allocated m' new prev sharetags) := by
  have hall : ∀ r, (s.allocated m' new prev sharetags).Known r ↔
      r ∈ new :: s.used ++ m.rpcfree := fun r => by
    show r ∈ new :: s.used ++ m'.rpcfree ↔ _
    rw [hfree]
  have hnew : new ∈ new :: s.used ++ m.rpcfree := List.mem_append_left _ List.mem_cons_self
  suffices hb : Books (fun r => r ∈ new :: s.used ++ m.rpcfree) m' ∧
      (sharetags < 0 → (m'.rpc new).owntag = false) ∧
      (0 ≤ sharetags → m'.Owns new (m'.rpc new).tag ∨
        ∃ o ∈ s.used, m'.Owns o (m'.rpc new).tag ∧ s.group o = s.groupof prev sharetags) by
    refine ⟨hb.1.congr rfl fun r t => by rw [hall]; rfl, ?_⟩
    exact h.groups.allocated ht hrec hnext hfree prev hb.2.1 hb.2.2
  cases hg with
  | bare hlt ho hm =>
    have hold := hneg hlt
    refine ⟨ht.books.congr hm fun r t => and_congr_right fun _ => ?_, fun _ => ho,
      fun h0 => absurd hlt (Int.not_lt.mpr h0)⟩
    by_cases hr : r = new
    · rw [hr]
      unfold Alloc.Owns
      rw [ho, hold]
      exact ⟨fun h => (Bool.noConfusion h.1), fun h => (Bool.noConfusion h.1)⟩
    · unfold Alloc.Owns
      rw [hrec r hr]
  | kept h0 ho he =>
    rw [he]
    exact ⟨ht.books, fun hlt => absurd hlt (Int.not_lt.mpr h0), fun _ => .inl ⟨ho, rfl⟩⟩
  | fresh h0 t ho hal hn hm =>
    refine ⟨ht.books.settag hnew ho (alloctag_spec hal) hm hn hrec,
      fun hlt => absurd hlt (Int.not_lt.mpr h0), fun _ => .inl ⟨hn.1, rfl⟩⟩
  | shared p hp h0 htp ho hm =>
    have hpu := hprev p hp
    have hpn : p ≠ new := ne_of_mem_of_not_mem hpu ht.unused
    have hptag : (m.rpc p).tag = (s.m.rpc p).tag := (ht.same p hpu).1
    -- the owner of the tag of `p` is in use, so `new` does not own it
    obtain ⟨o, hou, hot, hog⟩ := h.groups.shared p hpu (htag p hp h0)
    have hon : o ≠ new := ne_of_mem_of_not_mem hou ht.unused
    have hoo : m.Owns o (m.rpc p).tag := by
      unfold Alloc.Owns
      rw [(ht.same o hou).1, (ht.same o hou).2.1, hptag]
      exact hot
    have hall' : ∀ r ∈ s.used, r ∈ new :: s.used ++ m.rpcfree := fun r hr =>
      List.mem_append_left _ (List.mem_cons_of_mem _ hr)
    refine ⟨?_, fun hlt => absurd hlt (by omega), fun _ => .inr ⟨o, hou, ?_, ?_⟩⟩
    · by_cases hown : (m.rpc new).owntag = true
      · have hne : (m.rpc new).tag ≠ (m.rpc p).tag := fun he =>
          hon (ht.books.owner o new _ (hall' o hou) hnew hoo ⟨hown, he⟩)
        rw [if_pos ⟨hown, hne⟩] at hm
        exact ht.books.freetag hnew ⟨hown, rfl⟩ hm ho hrec
      · rw [if_neg fun h => hown h.1] at hm
        refine ht.books.congr hm fun r t => and_congr_right fun _ => ?_
        by_cases hr : r = new
        · rw [hr]
          unfold Alloc.Owns
          rw [ho]
          exact ⟨fun h => (Bool.noConfusion h.1), fun h => absurd h.1 hown⟩
        · unfold Alloc.Owns
          rw [hrec r hr]
    · rw [htp]
      unfold Alloc.Owns at *
      rw [hrec o hon]
      exact hoo
    · rw [hog, hp]
      exact (if_pos h0).symm

/-- A header that is lost with its buffer owned no tag. -/
theorem Inv.lost (h : Inv s) {m : Alloc} {x : Rpc} (hf : s.m.rpcfree = x :: m.rpcfree)
    (hrpc : m.rpc = s.m.rpc) (hmask : m.tagmask = s.m.tagmask)
    (ho : (s.m.rpc x).owntag = false) : Inv { s with m := m } := by
  have hnext : ∀ r, m.next r = s.m.next r := fun r => by
    unfold Alloc.next
    rw [hrpc]
  have hnd := h.groups.nodup
  rw [hf] at hnd
  refine ⟨h.books.congr hmask fun r t => ?_, ⟨?_, fun r hr hn => ?_, fun r hr hn => ?_,
    fun r hr n hn => ?_, fun r hr r' hr' n hn hn' => ?_, fun r hr => ?_⟩⟩
  · show r ∈ s.used ++ m.rpcfree ∧ m.Owns r t ↔ r ∈ s.used ++ s.m.rpcfree ∧ s.m.Owns r t
    unfold Alloc.Owns
    rw [hrpc, hf]
    refine ⟨fun ⟨h1, h2⟩ => ⟨?_, h2⟩, fun ⟨h1, h2⟩ => ⟨?_, h2⟩⟩
    · rcases List.mem_append.mp h1 with h1 | h1
      · exact List.mem_append_left _ h1
      · exact List.mem_append_right _ (List.mem_cons_of_mem _ h1)
    · rcases List.mem_append.mp h1 with h1 | h1
      · exact List.mem_append_left _ h1
      · rcases List.mem_cons.mp h1 with rfl | h1
        · rw [ho] at h2
          cases h2.1
        · exact List.mem_append_right _ h1
  · exact hnd.sublist ((List.sublist_cons_self _ _).append_left _)
  · obtain ⟨o, h1, h2, h3⟩ := h.groups.shared r hr hn
    refine ⟨o, h1, ?_, h3⟩
    show m.Owns o (m.rpc r).tag
    unfold Alloc.Owns at *
    rw [hrpc]
    exact h2
  · show (m.rpc r).owntag = false
    rw [hrpc]
    exact h.groups.bare r hr hn
  · exact h.groups.next r hr n ((hnext r).symm.trans hn)
  · exact h.groups.inj r hr r' hr' n ((hnext r).symm.trans hn) ((hnext r').symm.trans hn')
  · exact (hnext r).trans (h.groups.free r (hf ▸ List.mem_cons_of_mem _ hr))

/-- `mntralloc` does its part by part. -/
theorem mntralloc_some {s m' : Alloc} {r : Option Rpc}
    (h : mntralloc maxrpc s prev msize sharetags mem buf = some (m', r)) :
    (r = none ∧ getrpc maxrpc s msize mem buf = (m', none)) ∨
    ∃ new m m₂, r = some new ∧ getrpc maxrpc s msize mem buf = (m, some new) ∧
      tagrpc m new prev sharetags = some m₂ ∧ m' = m₂.set new { m₂.rpc new with poison := false } := by
  unfold mntralloc at h
  split at h
  · rename_i m hg
    cases h
    exact .inl ⟨rfl, hg⟩
  · rename_i m new hg
    split at h
    · cases h
    · rename_i m₂ ht
      split at h
      · cases h
      · cases h
        exact .inr ⟨new, m, m₂, rfl, hg, ht, rfl⟩

/-- Only the tags, their owners, the links and the free list matter. -/
theorem Inv.same (h : Inv s) {m : Alloc} (hs : SameTags s.m m) (hn : ∀ x, m.next x = s.m.next x)
    (hf : m.rpcfree = s.m.rpcfree) (hm : m.tagmask = s.m.tagmask) : Inv { s with m := m } := by
  refine ⟨h.books.congr hm fun r t => ?_, ⟨?_, fun r hr hr' => ?_, fun r hr hr' => ?_,
    fun r hr n hn' => ?_, fun r hr r' hr' n h1 h2 => ?_, fun r hr => ?_⟩⟩
  · rw [hs.owns]
    show r ∈ s.used ++ m.rpcfree ∧ _ ↔ _
    rw [hf]
    rfl
  · show (s.used ++ m.rpcfree).Nodup
    rw [hf]
    exact h.groups.nodup
  · obtain ⟨o, h1, h2, h3⟩ := h.groups.shared r hr hr'
    refine ⟨o, h1, ?_, h3⟩
    show m.Owns o (m.rpc r).tag
    rw [hs.owns, (hs r).1]
    exact h2
  · exact (hs r).2.trans (h.groups.bare r hr hr')
  · exact h.groups.next r hr n ((hn r).symm.trans hn')
  · exact h.groups.inj r hr r' hr' n ((hn r).symm.trans h1) ((hn r').symm.trans h2)
  · have hr : r ∈ m.rpcfree := hr
    rw [hf] at hr
    exact (hn r).trans (h.groups.free r hr)

theorem Inv.alloc (h : Inv s) (hg : Sound s (.alloc prev msize sharetags mem buf))
    (hs : Step maxrpc s (.alloc prev msize sharetags mem buf) s') : Inv s' := by
  obtain ⟨hprev, hmem, hs⟩ := hs
  rcases hs with ⟨m', new, ha, rfl⟩ | ⟨m', ha, rfl⟩
  · rcases mntralloc_some ha with ⟨hr, -⟩ | ⟨new', m, m₂, hr, hget, htag, rfl⟩
    · cases hr
    · cases hr
      have hgot := getrpc_some hget
      have ht := hgot.taken h hmem
      obtain ⟨hrec, hnext, hfree, htagged⟩ := tagrpc_some htag
      have hneg : sharetags < 0 → (m.rpc new).owntag = false := by
        intro hlt
        by_contra ho
        obtain ⟨hf, hot, -⟩ := ht.own (Bool.eq_true_of_not_eq_false ho)
        rw [hg.2 new _ hf (.inl hlt)] at hot
        cases hot
      have hinv := h.allocated ht prev htagged hrec hnext hfree hprev hg.1 hneg
      exact hinv.same (.set m₂ new rfl rfl) (SameTags.next_set rfl) rfl rfl
  · rcases mntralloc_some ha with ⟨-, hget⟩ | ⟨new', m, m₂, hr, -⟩
    · rcases getrpc_none hget with rfl | ⟨x, hf, hrpc, hmask, hlt, hb⟩
      · exact h
      · exact h.lost hf hrpc hmask (hg.2 x _ hf (.inr ⟨hlt, hb⟩))
    · cases hr

theorem Inv.link (h : Inv s) {prev : Rpc} (hg : Sound s (.link prev r))
    (hs : Step maxrpc s (.link prev r) s') : Inv s' := by
  obtain ⟨hp, hr, hne, hfirst, rfl⟩ := hs
  have hsame : SameTags s.m (linkrpc s.m prev r) := .set s.m prev rfl rfl
  have hnext : ∀ x, (linkrpc s.m prev r).next x = if x = prev then some r else s.m.next x := by
    intro x
    show ((s.m.set prev _).rpc x).tagnext = _
    rw [set_rpc]
    split <;> rfl
  refine ⟨h.books.congr rfl fun x t => by rw [hsame.owns]; rfl, ⟨h.groups.nodup, fun x hx hn => ?_,
    fun x hx hn => (hsame x).2.trans (h.groups.bare x hx hn), fun x hx n hn => ?_,
    fun x hx y hy n hn hn' => ?_, fun x hx => ?_⟩⟩
  · obtain ⟨o, h1, h2, h3⟩ := h.groups.shared x hx hn
    refine ⟨o, h1, ?_, h3⟩
    show (linkrpc s.m prev r).Owns o ((linkrpc s.m prev r).rpc x).tag
    rw [hsame.owns, (hsame x).1]
    exact h2
  · have hn : (linkrpc s.m prev r).next x = some n := hn
    rw [hnext] at hn
    split at hn
    · rename_i hx
      cases hn
      exact ⟨hr, fun e => hne (hx.symm.trans e.symm), hg⟩
    · exact h.groups.next x hx n hn
  · have hn : (linkrpc s.m prev r).next x = some n := hn
    have hn' : (linkrpc s.m prev r).next y = some n := hn'
    rw [hnext] at hn hn'
    split at hn
    · rename_i hxp
      split at hn'
      · rename_i hyp
        exact hxp.trans hyp.symm
      · cases hn
        exact absurd hn' (hfirst y hy)
    · split at hn'
      · cases hn'
        exact absurd hn (hfirst x hx)
      · exact h.groups.inj x hx y hy n hn hn'
  · have hxp : x ≠ prev := fun e => (List.nodup_append.mp h.groups.nodup).2.2 prev hp x hx e.symm
    show (linkrpc s.m prev r).next x = none
    rw [hnext, if_neg hxp]
    exact h.groups.free x hx

theorem Inv.pass (h : Inv s) (hs : Step maxrpc s (.pass r) s') : Inv s' := by
  obtain ⟨hr, rfl⟩ := hs
  unfold passtag
  cases hn : (s.m.rpc r).tagnext with
  | none => exact h
  | some n =>
    dsimp only
    split
    · rename_i hc
      obtain ⟨hnu, hne, hnn⟩ := h.groups.next r hr n hn
      generalize hm : (s.m.set n { s.m.rpc n with owntag := true }).set r
        { (s.m.set n { s.m.rpc n with owntag := true }).rpc r with owntag := false } = m
      have hrec : ∀ x, m.rpc x = if x = r then { s.m.rpc r with owntag := false }
          else if x = n then { s.m.rpc n with owntag := true } else s.m.rpc x := by
        intro x
        rw [← hm, set_rpc, set_rpc, set_rpc, if_neg hne.symm]
      have hmr : m.rpc r = { s.m.rpc r with owntag := false } := (hrec r).trans (if_pos rfl)
      have hmn : m.rpc n = { s.m.rpc n with owntag := true } :=
        (hrec n).trans ((if_neg hne).trans (if_pos rfl))
      have hmx : ∀ x, x ≠ r → x ≠ n → m.rpc x = s.m.rpc x := fun x h1 h2 =>
        (hrec x).trans ((if_neg h1).trans (if_neg h2))
      have htag : ∀ x, (m.rpc x).tag = (s.m.rpc x).tag := by
        intro x
        rw [hrec]
        split_ifs with h1 h2
        · rw [h1]
        · rw [h2]
        · rfl
      have hnext : ∀ x, m.next x = s.m.next x := by
        intro x
        unfold Alloc.next
        rw [hrec]
        split_ifs with h1 h2
        · rw [h1]
        · rw [h2]
        · rfl
      have hown : s.m.Owns r (s.m.rpc r).tag := ⟨hc.1, rfl⟩
      have hownn : m.Owns n (s.m.rpc r).tag := by
        unfold Alloc.Owns
        rw [hmn]
        exact ⟨rfl, hc.2⟩
      have hmask : m.tagmask = s.m.tagmask := by rw [← hm]; rfl
      have hfree : m.rpcfree = s.m.rpcfree := by rw [← hm]; rfl
      have hbooks := h.books.pass (Sys.known_used hr) (Sys.known_used hnu) hown hne hmask hownn
        (congrArg Mntrpc.owntag hmr) hc.2 hmx
      have hgroup : s.group r = s.group n :=
        (h.owner_used hnu hnn (Sys.known_used hr) (hc.2.symm ▸ hown)).2
      refine ⟨hbooks.congr rfl fun x t => ?_, ⟨?_, fun x hx hxn => ?_, fun x hx hxn => ?_,
        fun x hx y hy => h.groups.next x hx y ((hnext x).symm.trans hy),
        fun x hx y hy z hz hz' => h.groups.inj x hx y hy z ((hnext x).symm.trans hz)
          ((hnext y).symm.trans hz'), fun x hx => ?_⟩⟩
      · show x ∈ s.used ++ m.rpcfree ∧ _ ↔ _
        rw [hfree]
        rfl
      · show (s.used ++ m.rpcfree).Nodup
        rw [hfree]
        exact h.groups.nodup
      · obtain ⟨o, h1, h2, h3⟩ := h.groups.shared x hx hxn
        show ∃ o ∈ s.used, m.Owns o (m.rpc x).tag ∧ s.group o = s.group x
        rw [htag]
        by_cases hor : o = r
        · subst hor
          exact ⟨n, hnu, h2.2 ▸ hownn, hgroup.symm.trans h3⟩
        · by_cases hon : o = n
          · refine ⟨n, hnu, ⟨congrArg Mntrpc.owntag hmn, ?_⟩, hon ▸ h3⟩
            rw [htag, ← hon]
            exact h2.2
          · refine ⟨o, h1, ?_, h3⟩
            unfold Alloc.Owns
            rw [hmx o hor hon]
            exact h2
      · show (m.rpc x).owntag = false
        rw [hrec]
        split_ifs with h1 h2
        · rfl
        · rw [h2] at hxn
          cases hnn.symm.trans hxn
        · exact h.groups.bare x hx hxn
      · have hx : x ∈ m.rpcfree := hx
        rw [hfree] at hx
        exact (hnext x).trans (h.groups.free x hx)
    · exact h

/-- What is linked in a chain has one before it. -/
theorem chain_pred {next : Rpc → Option Rpc} {l : List Rpc} (h : Chain next (next r) l) {n : Rpc}
    (hn : n ∈ l) : ∃ y ∈ r :: l, next y = some n := by
  induction l generalizing r with
  | nil => cases hn
  | cons a l ih =>
    obtain ⟨ha, hl⟩ := h
    rcases List.mem_cons.mp hn with rfl | hn
    · exact ⟨r, List.mem_cons_self, ha⟩
    · obtain ⟨y, hy, hyn⟩ := ih hl hn
      exact ⟨y, List.mem_cons_of_mem _ hy, hyn⟩

theorem Inv.freed (h : Inv s) (hg : Sound s (.free r)) (hs : Step maxrpc s (.free r) s') :
    Inv s' := by
  obtain ⟨hr, hfirst, k, m, hm, rfl⟩ := hs
  obtain ⟨l, hchain, hnd, hsame, hmask, hfree, hnext⟩ := mntfree_spec hm
  have hfollows : ∀ x, x ∈ r :: l ↔ Follows s.m.next (some r) x := fun x =>
    ⟨hchain.follows, hchain.mem_of_follows⟩
  have hused : ∀ x ∈ r :: l, x ∈ s.used := fun x hx =>
    ((hfollows x).mp hx).mem_of_closed (fun a ha => Option.some.inj ha ▸ hr)
      fun a ha c hc => (h.groups.next a ha c hc).1
  have hfr : ∀ x, x ∈ m.rpcfree ↔ x ∈ s.m.rpcfree ∨ x ∈ r :: l := by
    intro x
    rw [hfree, List.mem_append, List.mem_append, List.mem_singleton, List.mem_cons, or_comm (a := x ∈ l)]
  have happart : ∀ x ∈ s.used, x ∉ s.m.rpcfree := fun x hx hxf =>
    (List.nodup_append.mp h.groups.nodup).2.2 x hx x hxf rfl
  have hleft : ∀ x, (x ∈ s.used.filter fun x => decide (x ∉ m.rpcfree)) ↔
      x ∈ s.used ∧ x ∉ r :: l := by
    intro x
    rw [List.mem_filter, decide_eq_true_iff, hfr, not_or]
    exact ⟨fun ⟨h1, _, h3⟩ => ⟨h1, h3⟩, fun ⟨h1, h3⟩ => ⟨h1, happart x h1, h3⟩⟩
  refine ⟨h.books.congr hmask fun x t => ?_, ⟨?_, fun x hx hn => ?_, fun x hx hn => ?_,
    fun x hx n hn => ?_, fun x hx y hy n hn hn' => ?_, fun x hx => ?_⟩⟩
  · rw [hsame.owns]
    refine and_congr_left fun _ => ?_
    show (x ∈ (s.used.filter fun x => decide (x ∉ m.rpcfree)) ++ m.rpcfree) ↔
      x ∈ s.used ++ s.m.rpcfree
    rw [List.mem_append, hleft, hfr, List.mem_append]
    constructor
    · rintro (⟨h1, -⟩ | h1 | h1)
      · exact .inl h1
      · exact .inr h1
      · exact .inl (hused x h1)
    · rintro (h1 | h1)
      · by_cases hx : x ∈ r :: l
        · exact .inr (.inr hx)
        · exact .inl ⟨h1, hx⟩
      · exact .inr (.inl h1)
  · show ((s.used.filter fun x => decide (x ∉ m.rpcfree)) ++ m.rpcfree).Nodup
    obtain ⟨hu, hf, hd⟩ := List.nodup_append.mp h.groups.nodup
    refine List.nodup_append.mpr ⟨hu.filter _, ?_, fun a ha b hb hab => ?_⟩
    · rw [hfree]
      refine List.nodup_append.mpr ⟨hf, ?_, fun a ha b hb hab => ?_⟩
      · exact (List.perm_append_singleton r l).nodup_iff.mpr hnd
      · have hbl : b ∈ r :: l := (List.perm_append_singleton r l).mem_iff.mp hb
        exact happart b (hused b hbl) (hab ▸ ha)
    · have := of_decide_eq_true (List.mem_filter.mp ha).2
      exact this (hab ▸ hb)
  · obtain ⟨hxu, hxl⟩ := (hleft x).mp hx
    obtain ⟨o, h1, h2, h3⟩ := h.groups.shared x hxu hn
    refine ⟨o, (hleft o).mpr ⟨h1, fun hol => ?_⟩, ?_, h3⟩
    · exact hg o ((hfollows o).mp hol) h2.1 x hxu (fun hf => hxl ((hfollows x).mpr hf)) hn h2.2.symm
    · show m.Owns o (m.rpc x).tag
      rw [hsame.owns, (hsame x).1]
      exact h2
  · exact (hsame x).2.trans (h.groups.bare x ((hleft x).mp hx).1 hn)
  · obtain ⟨hxu, hxl⟩ := (hleft x).mp hx
    have hn : m.next x = some n := hn
    rw [hnext, if_neg hxl] at hn
    obtain ⟨h1, h2, h3⟩ := h.groups.next x hxu n hn
    refine ⟨(hleft n).mpr ⟨h1, fun hnl => ?_⟩, h2, h3⟩
    rcases List.mem_cons.mp hnl with rfl | hnl
    · exact hfirst x hxu hn
    · obtain ⟨y, hy, hyn⟩ := chain_pred hchain.2 hnl
      exact hxl (h.groups.inj x hxu y (hused y hy) n hn hyn ▸ hy)
  · obtain ⟨hxu, hxl⟩ := (hleft x).mp hx
    obtain ⟨hyu, hyl⟩ := (hleft y).mp hy
    have hn : m.next x = some n := hn
    have hn' : m.next y = some n := hn'
    rw [hnext, if_neg hxl] at hn
    rw [hnext, if_neg hyl] at hn'
    exact h.groups.inj x hxu y hyu n hn hn'
  · show m.next x = none
    rw [hnext]
    split
    · rfl
    · rename_i hxl
      exact h.groups.free x (((hfr x).mp hx).resolve_right hxl)

variable {op : Op}

theorem Inv.step (h : Inv s) (hs : Step maxrpc s op s') (hg : Sound s op) : Inv s' := by
  cases op with
  | alloc prev msize sharetags mem buf => exact h.alloc hg hs
  | link prev r => exact h.link hg hs
  | pass r => exact h.pass hs
  | free r => exact h.freed hg hs

/-! ## Runs -/

theorem busy_mntreset (t : Nat) : busy mntreset.tagmask t = true ↔ Reserved t := by
  obtain ⟨h1, h2⟩ := tag_split t
  unfold busy mntreset Reserved NOTAG
  dsimp only
  generalize t >>> TAGSHIFT = i at *
  generalize t &&& TAGMASK = j at *
  have hN : NMASK - 1 = 2047 := rfl
  by_cases hi : i = 0
  · rw [if_pos hi, show (1#32) = 1#32 <<< 0 from rfl, getLsbD_bit h2, decide_eq_true_iff]
    omega
  · by_cases hi' : i = NMASK - 1
    · rw [if_neg hi, if_pos hi', show (0x80000000#32) = 1#32 <<< 31 from rfl, getLsbD_bit h2,
        decide_eq_true_iff]
      omega
    · rw [if_neg hi, if_neg hi', BitVec.getLsbD_zero]
      refine ⟨nofun, fun h => ?_⟩
      omega

theorem inv_init (s : Sys) (hs : s.m = mntreset) (hu : s.used = []) : Inv s := by
  have hempty : ∀ r, ¬s.Known r := fun r hr => by
    rw [Sys.Known, hu, hs] at hr
    cases hr
  refine ⟨⟨fun t => ?_, fun r t hr => absurd hr (hempty r), fun r r' t hr => absurd hr (hempty r)⟩,
    ?_⟩
  · rw [hs, busy_mntreset]
    exact ⟨.inl, fun h => h.elim id fun ⟨r, hr, _⟩ => absurd hr (hempty r)⟩
  · have hno : ∀ r, r ∉ s.used := fun r hr => by
      rw [hu] at hr
      cases hr
    have hfree : ∀ r, r ∉ s.m.rpcfree := fun r hr => by
      rw [hs] at hr
      cases hr
    refine ⟨?_, fun r hr => absurd hr (hno r), fun r hr => absurd hr (hno r),
      fun r hr => absurd hr (hno r), fun r hr => absurd hr (hno r), fun r hr => absurd hr (hfree r)⟩
    rw [hu, hs]
    exact List.nodup_nil

/-- The tags marked are the reserved ones and those that one rpc, in use or free, owns; rpcs in use
that have the same tag were allocated in one group. -/
structure Conserved (s : Sys) : Prop where
  busy : ∀ t, busy s.m.tagmask t = true ↔ Reserved t ∨ ∃ r, s.Known r ∧ s.m.Owns r t
  apart : ∀ r t, s.Known r → s.m.Owns r t → ¬Reserved t
  owner : ∀ r r' t, s.Known r → s.Known r' → s.m.Owns r t → s.m.Owns r' t → r = r'
  shared : ∀ r ∈ s.used, ∀ r' ∈ s.used, s.notag r = false → s.notag r' = false →
    (s.m.rpc r).tag = (s.m.rpc r').tag → s.group r = s.group r'

theorem Inv.conserved (h : Inv s) : Conserved s where
  busy := h.books.busy
  apart := h.books.apart
  owner := h.books.owner
  shared r hr r' hr' hn hn' ht := by
    obtain ⟨o, ho, hot, hog⟩ := h.groups.shared r hr hn
    exact hog.symm.trans (h.owner_used hr' hn' (Sys.known_used ho) (ht ▸ hot)).2

/-- The tags are conserved in every run of sound calls. -/
theorem tags_conserved (maxrpc : Nat) {s : Sys} (hr : ((lts maxrpc).restrict Sound).Reach s) :
    Conserved s :=
  have hI : ((lts maxrpc).restrict Sound).Inductive Inv :=
    ⟨fun s hs => inv_init s hs.1 hs.2, fun _ _ _ hI hs => hI.step hs.1 hs.2⟩
  (hI.reach hr).conserved

/-! ## Two runs -/

/-- The step, computed. -/
def exec (maxrpc : Nat) (s : Sys) : Op → Option Sys
  | .alloc prev msize sharetags mem buf =>
    if (∀ p ∈ prev, p ∈ s.used) ∧ ∀ x ∈ mem, x ∉ s.used ++ s.m.rpcfree then
      (mntralloc maxrpc s.m prev msize sharetags mem buf).map fun r =>
        match r.2 with
        | some new => s.allocated r.1 new prev sharetags
        | none => { s with m := r.1 }
    else none
  | .link prev r =>
    if prev ∈ s.used ∧ r ∈ s.used ∧ prev ≠ r ∧ ∀ x ∈ s.used, s.m.next x ≠ some r then
      some { s with m := linkrpc s.m prev r }
    else none
  | .pass r => if r ∈ s.used then some { s with m := passtag s.m r } else none
  | .free r =>
    if r ∈ s.used ∧ ∀ x ∈ s.used, s.m.next x ≠ some r then
      (mntfree s.used.length s.m r).map fun m =>
        { s with m := m, used := s.used.filter fun x => decide (x ∉ m.rpcfree) }
    else none

theorem exec_step (h : exec maxrpc s op = some s') : Step maxrpc s op s' := by
  cases op with
  | alloc prev msize sharetags mem buf =>
    simp only [exec, Option.ite_none_right_eq_some] at h
    obtain ⟨⟨h1, h2⟩, h⟩ := h
    obtain ⟨⟨m, r⟩, hr, h⟩ := Option.map_eq_some_iff.mp h
    refine ⟨fun p hp => h1 p (hp ▸ rfl), fun x hx => h2 x (hx ▸ rfl), ?_⟩
    cases r with
    | some new => exact .inl ⟨m, new, hr, h.symm⟩
    | none => exact .inr ⟨m, hr, h.symm⟩
  | link prev r =>
    simp only [exec, Option.ite_none_right_eq_some, Option.some.injEq] at h
    obtain ⟨⟨h1, h2, h3, h4⟩, h⟩ := h
    exact ⟨h1, h2, h3, h4, h.symm⟩
  | pass r =>
    simp only [exec, Option.ite_none_right_eq_some, Option.some.injEq] at h
    exact ⟨h.1, h.2.symm⟩
  | free r =>
    simp only [exec, Option.ite_none_right_eq_some] at h
    obtain ⟨⟨h1, h2⟩, h⟩ := h
    obtain ⟨m, hm, h⟩ := Option.map_eq_some_iff.mp h
    exact ⟨h1, h2, _, m, hm, h.symm⟩

def reset : Sys := ⟨mntreset, [], fun _ => 0, fun _ => false, 0⟩

/-- An rpc is allocated, freed, and taken for a version message. -/
def version : List Op := [.alloc none 0 0 (some 1) true, .free 1, .alloc none 0 (-1) none true]

/-- A group of two rpcs: the tag goes to the second one with the first reply, and both are freed. -/
def group : List Op :=
  [.alloc none 0 1 (some 1) true, .alloc (some 1) 0 1 (some 2) true, .link 1 2, .pass 1, .free 1]

/-- A sound step, computed. -/
def sound (maxrpc : Nat) (s : Sys) (op : Op) : Option Sys :=
  match op with
  | .alloc prev msize sharetags mem buf =>
    if (∀ p ∈ prev, 0 < sharetags → s.notag p = false) ∧
        ∀ x ∈ s.m.rpcfree, (s.m.rpc x).owntag = false then
      exec maxrpc s (.alloc prev msize sharetags mem buf)
    else none
  | .link prev r => if s.notag r = false then exec maxrpc s (.link prev r) else none
  | .pass r => exec maxrpc s (.pass r)
  | .free r =>
    if ∀ x ∈ s.used, x = r ∨ s.m.next r = some x then exec maxrpc s (.free r) else none

theorem sound_step (h : sound maxrpc s op = some s') :
    ((lts maxrpc).restrict Sound).step s op s' := by
  cases op with
  | alloc prev msize sharetags mem buf =>
    simp only [sound, Option.ite_none_right_eq_some] at h
    obtain ⟨⟨h1, h2⟩, h⟩ := h
    refine ⟨exec_step h, fun p hp => h1 p (hp ▸ rfl), fun x rest hx _ => h2 x ?_⟩
    rw [hx]
    exact List.mem_cons_self
  | link prev r =>
    simp only [sound, Option.ite_none_right_eq_some] at h
    exact ⟨exec_step h.2, h.1⟩
  | pass r => exact ⟨exec_step (show exec maxrpc s (.pass r) = some s' from h), trivial⟩
  | free r =>
    simp only [sound, Option.ite_none_right_eq_some] at h
    refine ⟨exec_step h.2, fun o _ _ x hx hnot => absurd ?_ hnot⟩
    rcases h.1 x hx with rfl | hn
    · exact .here x
    · exact .step (hn ▸ .here x)

theorem tags_conserved_group : ∃ s : Sys, s.m.rpcfree = [2, 1] ∧ Conserved s := by
  have hrun : (group.foldlM (sound 8216) reset).map (fun s : Sys => s.m.rpcfree) = some [2, 1] := by
    decide +kernel
  obtain ⟨s, hs, he⟩ := Option.map_eq_some_iff.mp hrun
  exact ⟨s, he, tags_conserved 8216 (Lts.Reach.exec (f := sound 8216) (fun _ _ _ => sound_step)
    ⟨[], .init ⟨rfl, rfl⟩⟩ hs)⟩

/-- The version message makes the rpc forget the tag 1, which stays marked. -/
theorem tags_leak : ¬∀ s, (lts 8216).Reach s → Conserved s := by
  intro h
  have hrun : (version.foldlM (exec 8216) reset).map (fun s : Sys =>
      (busy s.m.tagmask 1, s.used ++ s.m.rpcfree, (s.m.rpc 1).owntag)) = some (true, [1], false) := by
    decide +kernel
  obtain ⟨s, hs, he⟩ := Option.map_eq_some_iff.mp hrun
  simp only [Prod.mk.injEq] at he
  obtain ⟨hbusy, hall, hown⟩ := he
  have hreach : (lts 8216).Reach s := Lts.Reach.exec (S := lts 8216) (f := exec 8216)
    (fun _ _ _ => exec_step) ⟨[], .init ⟨rfl, rfl⟩⟩ hs
  rcases ((h s hreach).busy 1).mp hbusy with hr | ⟨r, hr, ho⟩
  · rcases hr with hr | hr <;> cases hr
  · rw [Sys.Known, hall] at hr
    rw [List.mem_singleton.mp hr] at ho
    cases hown.symm.trans ho.1

end NixMark.Mntalloc
