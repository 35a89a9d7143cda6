import Mathlib.Data.List.Forall2
import NixMark.Lib.Forest
import NixMark.Mnt.Table

/-!
# Copies of a mount table

* `Alike`: two trees that no walk tells apart.
* `dupum_spec`, `dupmnt_spec`: a copy has new `Mount`s only, and it is alike.
-/

namespace NixMark.Mnt

open Lib

variable {C : Type} {h h' h₁ h₁' : Heap C} {n m k d : ℕ} {l ins pre post : List (Mounted C)}

/-- The channels and the `Mount`s of a list. -/
def members (l : List (Mounted C)) : List C := l.filterMap Mounted.chan?

def kids (l : List (Mounted C)) : List ℕ := l.filterMap Mounted.child?

@[simp] theorem members_append (l l' : List (Mounted C)) :
    members (l ++ l') = members l ++ members l' := List.filterMap_append

@[simp] theorem kids_append (l l' : List (Mounted C)) : kids (l ++ l') = kids l ++ kids l' :=
  List.filterMap_append

@[simp] theorem members_chan (c : C) (l : List (Mounted C)) :
    members (.chan c :: l) = c :: members l := rfl

@[simp] theorem members_child (n : ℕ) (l : List (Mounted C)) :
    members (.child n :: l) = members l := rfl

@[simp] theorem kids_chan (c : C) (l : List (Mounted C)) : kids (.chan c :: l) = kids l := rfl

@[simp] theorem kids_child (n : ℕ) (l : List (Mounted C)) : kids (.child n :: l) = n :: kids l := rfl

theorem mem_kids : n ∈ kids l ↔ .child n ∈ l := by
  refine List.mem_filterMap.trans ⟨?_, fun hn => ⟨_, hn, rfl⟩⟩
  rintro ⟨m, hm, he⟩
  cases m with
  | chan c => cases he
  | child k =>
    cases he
    exact hm

/-- A `Mount` is older than those in it. -/
def Ordered (h : Heap C) : Prop := ∀ n, ∀ c ∈ h.children n, n < c ∧ c < h.next

/-- A path into a node depends on the older nodes only. -/
theorem below_le {c : ℕ} (ho : Ordered h') (hold : ∀ k, k < n → h'.children k = h.children k)
    (hb : Below h'.children c n) : Below h.children c n := by
  have hle : ∀ b, Below h'.children c b → b ≤ n → Below h.children c b := by
    intro b hb
    induction hb with
    | here => exact fun _ => .here
    | @step a b _ hab ih =>
      intro hbn
      have hlt := (ho a b hab).1
      rw [hold a (by omega)] at hab
      exact (ih (by omega)).step hab
  exact hle n hb le_rfl

/-! ## Writes -/

section Writes

variable {x : Mount C} {um : List (Mounted C)} {p : Option ℕ} {i : ℤ}

@[simp] theorem set_next : (h.set n x).next = h.next := rfl
@[simp] theorem setum_next : (h.setum n um).next = h.next := rfl
@[simp] theorem newmnt_next {el : String} : (h.newmnt el).next = h.next + 1 := rfl

@[simp] theorem set_self : (h.set n x).mnt n = x := Function.update_self ..
@[simp] theorem setum_self : (h.setum n um).mnt n = { h.mnt n with um := um } :=
  Function.update_self ..

theorem set_of_ne (hk : k ≠ n) : (h.set n x).mnt k = h.mnt k := Function.update_of_ne hk ..
theorem setum_of_ne (hk : k ≠ n) : (h.setum n um).mnt k = h.mnt k := Function.update_of_ne hk ..

theorem newmnt_of_ne {el : String} (hk : k ≠ h.next) : (h.newmnt el).mnt k = h.mnt k :=
  Function.update_of_ne hk ..

@[simp] theorem newmnt_self {el : String} : (h.newmnt el).mnt h.next = ⟨el, [], none, 0⟩ :=
  Function.update_self ..

end Writes

theorem setparents_next (n : ℕ) : ∀ (l : List (Mounted C)) (h : Heap C),
    (Heap.setparents n h l).next = h.next
  | [], _ => rfl
  | .chan _ :: l, _ => setparents_next n l _
  | .child _ :: l, _ => setparents_next n l _

theorem setparents_mnt (n : ℕ) : ∀ (l : List (Mounted C)) (h : Heap C) (k : ℕ),
    (Heap.setparents n h l).mnt k =
      { h.mnt k with parent := if k ∈ kids l then some n else (h.mnt k).parent }
  | [], _, _ => rfl
  | .chan _ :: l, h, k => setparents_mnt n l h k
  | .child c :: l, h, k => by
    rw [Heap.setparents, setparents_mnt n l]
    by_cases hk : k = c
    · subst hk
      simp [Heap.setparent]
    · simp [Heap.setparent, set_of_ne hk, hk]

/-! ## Trees that are alike -/

/-- Two entries that are the same, up to `R` for the `Mount`s in them. -/
def Entry (R : ℕ → ℕ → Prop) : Mounted C → Mounted C → Prop
  | .chan c, .chan c' => c = c'
  | .child a, .child b => R a b
  | _, _ => False

structure Alike1 (R : ℕ → ℕ → Prop) (m m' : Mount C) : Prop where
  elem : m'.elem = m.elem
  ismount : m'.ismount = m.ismount
  um : List.Forall₂ (Entry R) m.um m'.um

/-- No walk tells the trees of `n` and of `m` apart. -/
def Alike (h h' : Heap C) (n m : ℕ) : Prop :=
  ∃ R : ℕ → ℕ → Prop, R n m ∧ ∀ a b, R a b → Alike1 R (h.mnt a) (h'.mnt b)

theorem entries_mono {R R' : ℕ → ℕ → Prop} (h : List.Forall₂ (Entry R) l ins)
    (hR : ∀ a ∈ kids l, ∀ b ∈ kids ins, R a b → R' a b) : List.Forall₂ (Entry R') l ins := by
  induction h with
  | nil => exact .nil
  | @cons x y l ins hxy _ ih =>
    cases x with
    | chan c =>
      cases y with
      | chan c' => exact .cons hxy (ih hR)
      | child b => exact hxy.elim
    | child a =>
      cases y with
      | chan c => exact hxy.elim
      | child b =>
        refine .cons (hR a List.mem_cons_self b List.mem_cons_self hxy) (ih fun a' ha b' hb => ?_)
        exact hR a' (List.mem_cons_of_mem a ha) b' (List.mem_cons_of_mem b hb)

theorem Alike1.mono {R R' : ℕ → ℕ → Prop} (hR : ∀ a b, R a b → R' a b) {x y : Mount C}
    (h : Alike1 R x y) : Alike1 R' x y :=
  ⟨h.elem, h.ismount, entries_mono h.um fun a _ b _ => hR a b⟩

theorem Alike.out (ha : Alike h h' n m) : Alike1 (Alike h h') (h.mnt n) (h'.mnt m) := by
  obtain ⟨R, hnm, hR⟩ := ha
  exact (hR n m hnm).mono fun a b hab => ⟨R, hab, hR⟩

theorem Alike.intro (ha : Alike1 (Alike h h') (h.mnt n) (h'.mnt m)) : Alike h h' n m := by
  refine ⟨fun a b => (a = n ∧ b = m) ∨ Alike h h' a b, .inl ⟨rfl, rfl⟩, ?_⟩
  rintro a b (⟨rfl, rfl⟩ | hab)
  · exact ha.mono fun _ _ => .inr
  · exact hab.out.mono fun _ _ => .inr

/-- What a walk sees of a `Mount`. -/
structure Shown (m m' : Mount C) : Prop where
  elem : m'.elem = m.elem
  ismount : m'.ismount = m.ismount
  um : m'.um = m.um

theorem Alike.congr (ha : Alike h h' n m)
    (hs : ∀ k, Below h.children n k → Shown (h.mnt k) (h₁.mnt k))
    (hs' : ∀ k, Below h'.children m k → Shown (h'.mnt k) (h₁'.mnt k)) : Alike h₁ h₁' n m := by
  refine ⟨fun a b => Alike h h' a b ∧ Below h.children n a ∧ Below h'.children m b,
    ⟨ha, .here, .here⟩, ?_⟩
  rintro a b ⟨hab, hna, hmb⟩
  obtain ⟨he, hi, hu⟩ := hab.out
  have hs := hs a hna
  have hs' := hs' b hmb
  refine ⟨by rw [hs'.elem, hs.elem, he], by rw [hs'.ismount, hs.ismount, hi], ?_⟩
  rw [hs.um, hs'.um]
  exact entries_mono hu fun p hp q hq hpq => ⟨hpq, hna.step hp, hmb.step hq⟩

/-! ## The copies -/

/-- What a copy of a `Mount` has from it. -/
structure Twin (m m' : Mount C) : Prop where
  ismount : m'.ismount = m.ismount
  members : members m'.um = members m.um
  length : m'.um.length = m.um.length

/-- The `Mount`s in a new `Mount` are new, and know it. -/
structure Node (h : Heap C) (k : ℕ) : Prop where
  order : ∀ c ∈ h.children k, k < c ∧ c < h.next
  parent : ∀ c ∈ h.children k, (h.mnt c).parent = some k
  nodup : (h.children k).Nodup

/-- `h'` has a copy of `n`, whose first `Mount` is `h.next`. -/
structure Copied (h : Heap C) (n : ℕ) (h' : Heap C) : Prop where
  next : h.next < h'.next
  old : ∀ k, k < h.next → h'.mnt k = h.mnt k
  rest : ∀ k, h'.next ≤ k → h'.mnt k = h.mnt k
  parent : (h'.mnt h.next).parent = none
  made : ∀ k, h.next ≤ k → k < h'.next → Node h' k
  top : Twin (h.mnt n) (h'.mnt h.next)
  source : ∀ k, h.next < k → k < h'.next →
    ∃ c ∈ h.children n, ∃ s, Below h.children c s ∧ Twin (h.mnt s) (h'.mnt k)
  alike : Alike h h' n h.next

/-- The trees of `l` do not have the node `d`. -/
def Free (h : Heap C) (d : ℕ) (l : List (Mounted C)) : Prop :=
  ∀ c ∈ kids l, ¬ Below h.children c d

/-- `G` says the same of a copy. -/
def Kept (G : Mount C → Prop) : Prop := ∀ m m', Twin m m' → G m → G m'

/-- The `Mount`s in a `Mount` have `G`, `d` apart. -/
def Held (G : Mount C → Prop) (h : Heap C) (d : ℕ) : Prop :=
  ∀ a, ∀ c ∈ h.children a, c ≠ d → G (h.mnt c)

/-- `d` has `G` when `dupum` comes to a tree with it. -/
def HeldAt (G : Mount C → Prop) (h : Heap C) (d : ℕ) (pre post l : List (Mounted C)) : Prop :=
  ∀ l₁ c l₂, l = l₁ ++ .child c :: l₂ → Below h.children c d →
    G { h.mnt d with um := pre ++ l₁ ++ post }

/-- `h'` has new entries `ins` in the list of `d`, between `pre` and `post`. -/
structure Added (h : Heap C) (d : ℕ) (pre post ins : List (Mounted C)) (h' : Heap C) : Prop where
  next : h.next ≤ h'.next
  old : ∀ k, k < h.next → k ≠ d → h'.mnt k = h.mnt k
  rest : ∀ k, h'.next ≤ k → h'.mnt k = h.mnt k
  dest : h'.mnt d = { h.mnt d with um := pre ++ ins ++ post }
  fresh : ∀ c ∈ kids ins, h.next ≤ c ∧ c < h'.next ∧ (h'.mnt c).parent = none
  nodup : (kids ins).Nodup
  made : ∀ k, h.next ≤ k → k < h'.next → Node h' k

/-- The new entries are copies of `l`. -/
structure Spliced (h : Heap C) (d : ℕ) (pre post l ins : List (Mounted C)) (h' : Heap C) : Prop
    extends Added h d pre post ins h' where
  members : members ins = members l
  length : ins.length = l.length
  source : Free h d l → ∀ k, h.next ≤ k → k < h'.next →
    ∃ c ∈ kids l, ∃ s, Below h.children c s ∧ Twin (h.mnt s) (h'.mnt k)
  alike : Free h d l → List.Forall₂ (Entry (Alike h h')) l ins
  held : ∀ G, Kept G → Held G h d → (∀ c ∈ kids l, c ≠ d → G (h.mnt c)) → HeldAt G h d pre post l →
    Held G h' d ∧ ∀ c ∈ kids ins, G (h'.mnt c)

theorem Ordered.lt (ho : Ordered h) (hk : Below h.children n k) (hn : n < h.next) : k < h.next := by
  obtain rfl | ⟨b, -, hb⟩ := hk.cases_root
  · exact hn
  · exact (ho b k hb).2

/-- The heaps on the way of `dupum`. -/
structure Way (h : Heap C) (d : ℕ) (h₁ : Heap C) : Prop where
  next : h.next ≤ h₁.next
  old : ∀ k, k < h.next → k ≠ d → h₁.mnt k = h.mnt k
  ordered : Ordered h₁

theorem Way.children (hw : Way h d h₁) (hk : k < h.next) (hkd : k ≠ d) :
    h₁.children k = h.children k := by
  unfold Heap.children
  rw [hw.old k hk hkd]

/-- A tree without the node `d` stays as it is. -/
theorem Way.below (hw : Way h d h₁) (ho : Ordered h) (hn : n < h.next)
    (hd : ¬ Below h.children n d) : Below h₁.children n k ↔ Below h.children n k :=
  Below.congr_iff fun _ hb => hw.children (ho.lt hb hn) fun e => hd (e ▸ hb)

theorem Way.mnt (hw : Way h d h₁) (ho : Ordered h) (hn : n < h.next)
    (hd : ¬ Below h.children n d) (hk : Below h.children n k) : h₁.mnt k = h.mnt k :=
  hw.old k (ho.lt hk hn) fun e => hd (e ▸ hk)

theorem Way.free (hw : Way h d h₁) (ho : Ordered h) (hl : ∀ c ∈ kids l, c < h.next)
    (hf : Free h d l) : Free h₁ d l := fun c hc =>
  (hw.below ho (hl c hc) (hf c hc)).not.mpr (hf c hc)

theorem Way.trans (hw : Way h d h₁) (hw' : Way h₁ d h') : Way h d h' :=
  ⟨hw.next.trans hw'.next, fun k hk hd =>
    (hw'.old k (hk.trans_le hw.next) hd).trans (hw.old k hk hd), hw'.ordered⟩

/-- The sources of the copies are the same before the first writes. -/
theorem Way.source (hw : Way h d h₁) (ho : Ordered h) (hl : ∀ c ∈ kids l, c < h.next)
    (hf : Free h d l) {x : Mount C}
    (hs : ∃ c ∈ kids l, ∃ s, Below h₁.children c s ∧ Twin (h₁.mnt s) x) :
    ∃ c ∈ kids l, ∃ s, Below h.children c s ∧ Twin (h.mnt s) x := by
  obtain ⟨c, hc, s, hs, ht⟩ := hs
  have hs' := (hw.below ho (hl c hc) (hf c hc)).mp hs
  rw [hw.mnt ho (hl c hc) (hf c hc) hs'] at ht
  exact ⟨c, hc, s, hs', ht⟩

theorem shown_of_eq {x y : Mount C} (h : x = y) : Shown y x := by
  rw [h]
  exact ⟨rfl, rfl, rfl⟩

theorem Way.alike (hw : Way h d h₁) (ho : Ordered h) (hl : ∀ c ∈ kids l, c < h.next)
    (hf : Free h d l) (ha : List.Forall₂ (Entry (Alike h₁ h')) l ins) :
    List.Forall₂ (Entry (Alike h h')) l ins := by
  refine entries_mono ha fun a hal b _ hab => hab.congr (fun k hk => shown_of_eq ?_)
    fun _ _ => ⟨rfl, rfl, rfl⟩
  exact (hw.mnt ho (hl a hal) (hf a hal) ((hw.below ho (hl a hal) (hf a hal)).mp hk)).symm

theorem Copied.below (hc : Copied h n h') (hk : Below h'.children h.next k) :
    h.next ≤ k ∧ k < h'.next :=
  hk.induct (Q := fun k => h.next ≤ k ∧ k < h'.next) ⟨le_rfl, hc.next⟩ fun a b ha hb => by
    have := (hc.made a ha.1 ha.2).order b hb
    omega

theorem Node.congr (hn : Node h k) (hk : h'.mnt k = h.mnt k) (hnext : h.next ≤ h'.next)
    (hc : ∀ c ∈ h.children k, h'.mnt c = h.mnt c) : Node h' k := by
  have he : h'.children k = h.children k := by
    unfold Heap.children
    rw [hk]
  refine ⟨fun c h' => ?_, fun c h' => ?_, by rw [he]; exact hn.nodup⟩
  · rw [he] at h'
    exact ⟨(hn.order c h').1, (hn.order c h').2.trans_le hnext⟩
  · rw [he] at h'
    rw [hc c h', hn.parent c h']

/-- The new `Mount`s have what the old ones have. -/
theorem Copied.held {G : Mount C → Prop} (hc : Copied h n h') (hG : Kept G) (hh : Held G h d)
    (hn : n ≠ d → G (h.mnt n)) (hd : Below h.children n d → G (h.mnt d)) (k : ℕ)
    (hk : h.next ≤ k) (hk' : k < h'.next) : G (h'.mnt k) := by
  have hsource : ∀ s, Below h.children n s → G (h.mnt s) := by
    intro s hs
    by_cases hsd : s = d
    · rw [hsd] at hs ⊢
      exact hd hs
    · obtain rfl | ⟨b, -, hb⟩ := hs.cases_root
      · exact hn hsd
      · exact hh b s hb hsd
  by_cases hkn : k = h.next
  · rw [hkn]
    exact hG _ _ hc.top (hsource n .here)
  · obtain ⟨b, hb, s, hbs, ht⟩ := hc.source k (by omega) hk'
    exact hG _ _ ht (hsource s ((Below.child hb).trans hbs))

/-- A channel comes to the list of `d`. -/
theorem Way.chan {c : C} (ho : Ordered h) (hum : (h.mnt d).um = pre ++ post) :
    Way h d (h.setum d (pre ++ .chan c :: post)) := by
  refine ⟨le_rfl, fun k _ hk => setum_of_ne hk, fun k b hb => ho k b ?_⟩
  unfold Heap.children at hb ⊢
  by_cases hk : k = d
  · rw [hk, setum_self] at hb
    rw [hk, hum]
    change b ∈ kids (pre ++ .chan c :: post) at hb
    change b ∈ kids (pre ++ post)
    rwa [kids_append, kids_chan, ← kids_append] at hb
  · rwa [setum_of_ne hk] at hb

/-- A copy comes to the list of `d`. -/
theorem Way.child (hd : d < h.next) (ho : Ordered h) (hum : (h.mnt d).um = pre ++ post)
    (hc : Copied h n h₁) : Way h d (h₁.setum d (pre ++ .child h.next :: post)) := by
  have hlt := hc.next
  refine ⟨hlt.le, fun k hk hkd => (setum_of_ne hkd).trans (hc.old k hk), fun k b hb => ?_⟩
  rw [setum_next]
  unfold Heap.children at hb
  by_cases hkd : k = d
  · rw [hkd, setum_self] at hb
    change b ∈ kids (pre ++ .child h.next :: post) at hb
    have hb' : b = h.next ∨ b ∈ h.children d := by
      rw [Heap.children, hum]
      change _ ∨ b ∈ kids (pre ++ post)
      rw [kids_append, List.mem_append, kids_child, List.mem_cons] at hb
      rw [kids_append, List.mem_append]
      tauto
    rw [hkd]
    obtain rfl | hb' := hb'
    · exact ⟨hd, hlt⟩
    · have := ho d b hb'
      omega
  · rw [setum_of_ne hkd] at hb
    obtain hk | hk | hk : k < h.next ∨ (h.next ≤ k ∧ k < h₁.next) ∨ h₁.next ≤ k := by omega
    · rw [hc.old k hk] at hb
      have := ho k b hb
      omega
    · exact (hc.made k hk.1 hk.2).order b hb
    · rw [hc.rest k hk] at hb
      have := ho k b hb
      omega

theorem Spliced.nil (hum : (h.mnt d).um = pre ++ post) : Spliced h d pre post [] [] h := by
  refine ⟨⟨le_rfl, fun _ _ _ => rfl, fun _ _ => rfl, ?_, fun _ h => absurd h List.not_mem_nil,
    List.nodup_nil, fun k h₁ h₂ => absurd h₂ (by omega)⟩, rfl, rfl,
    fun _ k h₁ h₂ => absurd h₂ (by omega), fun _ => .nil,
    fun _ _ hh _ _ => ⟨hh, fun _ h => absurd h List.not_mem_nil⟩⟩
  rw [List.append_nil, ← hum]

theorem Spliced.chan {c : C} (ho : Ordered h) (hd : d < h.next)
    (hum : (h.mnt d).um = pre ++ post) (hl : ∀ c ∈ kids l, c < h.next)
    (hh₁ : h₁ = h.setum d (pre ++ .chan c :: post))
    (hs : Spliced h₁ d (pre ++ [.chan c]) post l ins h') :
    Spliced h d pre post (.chan c :: l) (.chan c :: ins) h' := by
  have hw : Way h d h₁ := hh₁ ▸ .chan ho hum
  have hold : ∀ k, k ≠ d → h₁.mnt k = h.mnt k := fun k hk => by rw [hh₁, setum_of_ne hk]
  have hnext : h₁.next = h.next := by rw [hh₁, setum_next]
  refine ⟨⟨hnext ▸ hs.next, fun k hk hkd => ?_, fun k hk => ?_, ?_, fun c hc => ?_,
    hs.nodup, fun k hk => hs.made k (hnext ▸ hk)⟩, ?_, ?_, fun hf k hk hk' => ?_, fun hf => ?_,
    fun G hG hh hgl hat => ?_⟩
  · rw [hs.old k (hnext ▸ hk) hkd, hold k hkd]
  · have hkd : k ≠ d := by
      have := hs.next
      omega
    rw [hs.rest k hk, hold k hkd]
  · rw [hs.dest, hh₁, setum_self, List.append_assoc, List.append_assoc, List.append_assoc]
    rfl
  · rw [← hnext]
    exact hs.fresh c hc
  · rw [members_chan, members_chan, hs.members]
  · rw [List.length_cons, List.length_cons, hs.length]
  · exact hw.source ho hl hf (hs.source (hw.free ho hl hf) k (hnext ▸ hk) hk')
  · exact .cons rfl (hw.alike ho hl hf (hs.alike (hw.free ho hl hf)))
  · have hchild : ∀ k, h₁.children k = h.children k := by
      intro k
      unfold Heap.children
      by_cases hk : k = d
      · rw [hk, hh₁, setum_self, hum]
        change kids (pre ++ .chan c :: post) = kids (pre ++ post)
        rw [kids_append, kids_append, kids_chan]
      · rw [hold k hk]
    refine hs.held G hG (fun a b hb hbd => ?_) (fun b hb hbd => ?_) fun l₁ b l₂ hsplit hbelow => ?_
    · rw [hchild] at hb
      rw [hold b hbd]
      exact hh a b hb hbd
    · rw [hold b hbd]
      exact hgl b hb hbd
    · have hG' := hat (.chan c :: l₁) b l₂ (congrArg _ hsplit) (hbelow.congr fun k _ => (hchild k).symm)
      rw [hh₁, setum_self, List.append_assoc pre]
      exact hG'

/-- The `Mount`s of the first copy do not change any more. -/
theorem Added.first (hd : d < h.next)
    (ha : Added (h₁.setum d (pre ++ .child h.next :: post)) d (pre ++ [.child h.next]) post ins h')
    (hk : h.next ≤ k) (hk' : k < h₁.next) : h'.mnt k = h₁.mnt k := by
  rw [ha.old k hk' (by omega), setum_of_ne (by omega)]

theorem Spliced.child {c : ℕ} {h₂ : Heap C} (ho : Ordered h) (hd : d < h.next)
    (hum : (h.mnt d).um = pre ++ post) (hl : ∀ b ∈ kids l, b < h.next) (hc : Copied h c h₂)
    (hh₁ : h₁ = h₂.setum d (pre ++ .child h.next :: post))
    (hs : Spliced h₁ d (pre ++ [.child h.next]) post l ins h') :
    Spliced h d pre post (.child c :: l) (.child h.next :: ins) h' := by
  have hw : Way h d h₁ := hh₁ ▸ .child hd ho hum hc
  have hlt := hc.next
  have hnext : h₁.next = h₂.next := by rw [hh₁, setum_next]
  have hnext' := hs.next
  have hold : ∀ k, k ≠ d → h₁.mnt k = h₂.mnt k := fun k hk => by rw [hh₁, setum_of_ne hk]
  have hfirst : ∀ k, h.next ≤ k → k < h₂.next → h'.mnt k = h₂.mnt k := fun k =>
    Added.first hd (hh₁ ▸ hs.toAdded)
  refine ⟨⟨by omega, fun k hk hkd => ?_, fun k hk => ?_, ?_, fun b hb => ?_, ?_,
    fun k hk hk' => ?_⟩, ?_, ?_, fun hf k hk hk' => ?_, fun hf => ?_, fun G hG hh hgl hat => ?_⟩
  · rw [hs.old k (by omega) hkd, hold k hkd, hc.old k hk]
  · rw [hs.rest k hk, hold k (by omega), hc.rest k (by omega)]
  · rw [hs.dest, hh₁, setum_self, hc.old d hd, List.append_assoc, List.append_assoc,
      List.append_assoc]
    rfl
  · rw [kids_child] at hb
    obtain rfl | hb := List.mem_cons.mp hb
    · rw [hfirst h.next le_rfl hlt]
      exact ⟨le_rfl, by omega, hc.parent⟩
    · have := hs.fresh b hb
      exact ⟨by omega, this.2⟩
  · rw [kids_child]
    refine List.nodup_cons.mpr ⟨fun hmem => ?_, hs.nodup⟩
    have := (hs.fresh h.next hmem).1
    omega
  · by_cases hk₂ : k < h₂.next
    · have hn := hc.made k hk hk₂
      refine hn.congr (hfirst k hk hk₂) (by omega) fun b hb => ?_
      have := hn.order b hb
      exact hfirst b (by omega) this.2
    · exact hs.made k (by omega) hk'
  · rw [members_child, members_child, hs.members]
  · rw [List.length_cons, List.length_cons, hs.length]
  · by_cases hk₂ : k < h₂.next
    · rw [hfirst k hk hk₂]
      refine ⟨c, List.mem_cons_self, ?_⟩
      by_cases hkn : k = h.next
      · rw [hkn]
        exact ⟨c, .here, hc.top⟩
      · obtain ⟨b, hb, s, hbs, ht⟩ := hc.source k (by omega) hk₂
        exact ⟨s, (Below.child hb).trans hbs, ht⟩
    · have hf' : Free h d l := fun b hb => hf b (List.mem_cons_of_mem c hb)
      obtain ⟨b, hb, hs'⟩ := hw.source ho hl hf' (hs.source (hw.free ho hl hf') k (by omega) hk')
      exact ⟨b, List.mem_cons_of_mem c hb, hs'⟩
  · have hf' : Free h d l := fun b hb => hf b (List.mem_cons_of_mem c hb)
    refine .cons ?_ (hw.alike ho hl hf' (hs.alike (hw.free ho hl hf')))
    refine hc.alike.congr (fun _ _ => ⟨rfl, rfl, rfl⟩) fun k hk => shown_of_eq ?_
    obtain ⟨hk, hk'⟩ := hc.below hk
    exact hfirst k hk hk'
  · have hat' : Below h.children c d → G (h.mnt d) := fun hb => by
      have hG' := hat [] c l rfl hb
      rw [List.append_nil, ← hum] at hG'
      exact hG'
    have hnew := hc.held hG hh (hgl c List.mem_cons_self) hat'
    have hh₁' : Held G h₁ d := by
      intro a b hb hbd
      rw [hold b hbd]
      have hlt' := hw.ordered a b hb
      by_cases hbn : b < h.next
      · rw [hc.old b hbn]
        refine hh a b ?_ hbd
        unfold Heap.children at hb ⊢
        by_cases had : a = d
        · rw [had, hh₁, setum_self] at hb
          rw [had, hum]
          change b ∈ kids (pre ++ .child h.next :: post) at hb
          change b ∈ kids (pre ++ post)
          rw [kids_append, List.mem_append, kids_child, List.mem_cons] at hb
          rw [kids_append, List.mem_append]
          exact hb.imp_right fun hb => hb.resolve_left hbn.ne
        · rwa [hold a had, hc.old a (by omega)] at hb
      · exact hnew b (by omega) (by omega)
    have hgl₁ : ∀ b ∈ kids l, b ≠ d → G (h₁.mnt b) := by
      intro b hb hbd
      rw [hold b hbd, hc.old b (hl b hb)]
      exact hgl b (List.mem_cons_of_mem c hb) hbd
    have hat₁ : HeldAt G h₁ d (pre ++ [.child h.next]) post l := by
      intro l₁ b l₂ hsplit hb
      have hb' := below_le hw.ordered (fun k hk => hw.children (by omega) (by omega)) hb
      rw [hh₁, setum_self, hc.old d hd]
      have hG' := hat (.child c :: l₁) b l₂ (congrArg _ hsplit) hb'
      refine hG _ _ ?_ hG'
      exact ⟨rfl, by simp, by simp⟩
    obtain ⟨hh', hins⟩ := hs.held G hG hh₁' hgl₁ hat₁
    refine ⟨hh', fun b hb => ?_⟩
    obtain rfl | hb := List.mem_cons.mp hb
    · rw [hfirst h.next le_rfl hlt]
      exact hnew h.next le_rfl hlt
    · exact hins b hb

theorem dupum_spec {dup : Heap C → ℕ → Option (ℕ × Heap C)} (h : Heap C)
    (pre post l : List (Mounted C)) (hd : d < h.next) (ho : Ordered h)
    (hum : (h.mnt d).um = pre ++ post) (hl : ∀ c ∈ kids l, c < h.next)
    (hdup : ∀ h₁, Way h d h₁ → ∀ c ∈ kids l, ∃ h₂, dup h₁ c = some (h₁.next, h₂) ∧ Copied h₁ c h₂) :
    ∃ ins h', Heap.dupum dup d post h pre l = some (ins, h') ∧ Spliced h d pre post l ins h' := by
  induction l generalizing h pre with
  | nil =>
    exact ⟨[], h, rfl, .nil hum⟩
  | cons x l ih =>
    cases x with
    | chan c =>
      have hw : Way h d (h.setum d (pre ++ .chan c :: post)) := .chan ho hum
      obtain ⟨ins, h', hrun, hs⟩ := ih (h.setum d (pre ++ .chan c :: post))
        (pre ++ [.chan c]) hd hw.ordered (by rw [setum_self, List.append_assoc]; rfl) hl
        fun h₂ hw₂ => hdup h₂ (hw.trans hw₂)
      refine ⟨.chan c :: ins, h', ?_, .chan ho hd hum hl rfl hs⟩
      rw [Heap.dupum, hrun]
      rfl
    | child c =>
      obtain ⟨h₂, hrun₂, hc⟩ := hdup h ⟨le_rfl, fun _ _ _ => rfl, ho⟩ c List.mem_cons_self
      have hw : Way h d (h₂.setum d (pre ++ .child h.next :: post)) := .child hd ho hum hc
      have hl' : ∀ b ∈ kids l, b < h.next := fun b hb => hl b (List.mem_cons_of_mem c hb)
      obtain ⟨ins, h', hrun, hs⟩ := ih (h₂.setum d (pre ++ .child h.next :: post))
        (pre ++ [.child h.next]) (hd.trans_le hw.next) hw.ordered
        (by rw [setum_self, List.append_assoc]; rfl) (fun b hb => (hl' b hb).trans_le hw.next)
        fun h₃ hw₃ b hb => hdup h₃ (hw.trans hw₃) b (List.mem_cons_of_mem c hb)
      refine ⟨.child h.next :: ins, h', ?_, .child ho hd hum hl' hc rfl hs⟩
      rw [Heap.dupum, hrun₂]
      simp only
      rw [hrun]
      rfl

/-- `N`: the `Mount`s that are in the tree of `n` are below it. -/
theorem dupmnt_spec (fuel : ℕ) : ∀ (h : Heap C) (N n : ℕ), Ordered h → N ≤ h.next →
    (∀ k, k < N → ∀ c ∈ h.children k, c < N) → n < N → N ≤ fuel + n →
    ∃ h', Heap.dupmnt fuel h n = some (h.next, h') ∧ Copied h n h' := by
  induction fuel with
  | zero =>
    intro h N n _ _ _ hn hf
    omega
  | succ fuel ih =>
    intro h N n ho hN hclosed hn hf
    obtain ⟨h₀, hh₀⟩ : ∃ h₀, h₀ = h.newmnt (h.mnt n).elem := ⟨_, rfl⟩
    have hnext : h₀.next = h.next + 1 := by rw [hh₀, newmnt_next]
    have hself : h₀.mnt h.next = ⟨(h.mnt n).elem, [], none, 0⟩ := by rw [hh₀, newmnt_self]
    have hold : ∀ k, k ≠ h.next → h₀.mnt k = h.mnt k := fun k hk => by rw [hh₀, newmnt_of_ne hk]
    have hchild : ∀ k, k ≠ h.next → h₀.children k = h.children k := fun k hk => by
      rw [Heap.children, hold k hk, Heap.children]
    have ho₀ : Ordered h₀ := by
      intro k c hc
      by_cases hk : k = h.next
      · rw [hk, Heap.children, hself] at hc
        cases hc
      · rw [hchild k hk] at hc
        have := ho k c hc
        omega
    have hbelow : ∀ {c k}, c < N → Below h₀.children c k → k < N := by
      intro c k hc hk
      refine hk.induct (Q := fun k => k < N) hc fun a b ha hb => ?_
      rw [hchild a (by omega)] at hb
      exact hclosed a ha b hb
    have hkids : ∀ c ∈ kids (h.mnt n).um, n < c ∧ c < N := fun c hc =>
      ⟨(ho n c hc).1, hclosed n hn c hc⟩
    obtain ⟨ins, h₂, hrun, hs⟩ := dupum_spec (d := h.next) h₀ [] []
      (h.mnt n).um (by omega) ho₀ (by rw [hself]; rfl)
      (fun c hc => by have := hkids c hc; omega) fun h₁ hw c hc => by
        have hc' := hkids c hc
        refine ih h₁ N c hw.ordered (hN.trans (by have := hw.next; omega)) (fun k hk b hb => ?_)
          hc'.2 (by omega)
        have hw' := hw.next
        rw [hw.children (by omega) (by omega), hchild k (by omega)] at hb
        exact hclosed k hk b hb
    have hfree : Free h₀ h.next (h.mnt n).um := by
      intro c hc hb
      have := hbelow (hkids c hc).2 hb
      omega
    obtain ⟨h', hh'⟩ : ∃ h', h' = (Heap.setparents h.next h₂ ins).set h.next
        { (Heap.setparents h.next h₂ ins).mnt h.next with
          ismount := ((Heap.setparents h.next h₂ ins).mnt n).ismount } := ⟨_, rfl⟩
    have hnext₂ := hs.next
    have hnext' : h'.next = h₂.next := by rw [hh', set_next, setparents_next]
    have hmnt : ∀ k, k ≠ h.next → h'.mnt k = { h₂.mnt k with
        parent := if k ∈ kids ins then some h.next else (h₂.mnt k).parent } := fun k hk => by
      rw [hh', set_of_ne hk, setparents_mnt]
    have hnins : h.next ∉ kids ins := fun hc => by
      have := (hs.fresh _ hc).1
      omega
    have htop : h'.mnt h.next = ⟨(h.mnt n).elem, ins, none, (h.mnt n).ismount⟩ := by
      rw [hh', set_self, setparents_mnt, setparents_mnt, if_neg hnins, hs.dest, hself,
        hs.old n (by omega) (by omega), hold n (by omega)]
      simp only [List.nil_append, List.append_nil]
    have hshown : ∀ k, k ≠ h.next → Shown (h₂.mnt k) (h'.mnt k) := fun k hk => by
      rw [hmnt k hk]
      exact ⟨rfl, rfl, rfl⟩
    have hchild' : ∀ k, k ≠ h.next → h'.children k = h₂.children k := fun k hk => by
      rw [Heap.children, (hshown k hk).um, Heap.children]
    refine ⟨h', ?_, ⟨by omega, fun k hk => ?_, fun k hk => ?_, by rw [htop], fun k hk hk' => ?_, ?_,
      fun k hk hk' => ?_, ?_⟩⟩
    · rw [Heap.dupmnt]
      simp only [← hh₀, hrun]
      rw [hh']
    · have hk' : k ∉ kids ins := fun hc => by
        have := (hs.fresh _ hc).1
        omega
      rw [hmnt k (by omega), if_neg hk', hs.old k (by omega) (by omega), hold k (by omega)]
    · have hk' : k ∉ kids ins := fun hc => by
        have := (hs.fresh _ hc).2.1
        omega
      rw [hmnt k (by omega), if_neg hk', hs.rest k (by omega), hold k (by omega)]
    · by_cases hkn : k = h.next
      · have hc : h'.children k = kids ins := by
          rw [hkn, Heap.children, htop]
          rfl
        refine ⟨fun c h => ?_, fun c h => ?_, by rw [hc]; exact hs.nodup⟩
        · rw [hc] at h
          have := hs.fresh c h
          omega
        · rw [hc] at h
          have := hs.fresh c h
          rw [hmnt c (by omega), if_pos h, hkn]
      · have hnode := hs.made k (by omega) (by omega)
        have hc := hchild' k hkn
        refine ⟨fun c h => ?_, fun c h => ?_, by rw [hc]; exact hnode.nodup⟩
        · rw [hc] at h
          rw [hnext']
          exact hnode.order c h
        · rw [hc] at h
          have hlt := hnode.order c h
          have hp := hnode.parent c h
          have hcins : c ∉ kids ins := fun hmem => by
            rw [(hs.fresh c hmem).2.2] at hp
            cases hp
          rw [hmnt c (by omega), if_neg hcins, hp]
    · refine ⟨by rw [htop], ?_, ?_⟩
      · rw [htop]
        exact hs.members
      · rw [htop]
        exact hs.length
    · obtain ⟨c, hc, s, hcs, ht⟩ := hs.source hfree k (by omega) (by omega)
      have hs' := hbelow (hkids c hc).2 hcs
      rw [hold s (by omega)] at ht
      have hk'' := hshown k (by omega)
      refine ⟨c, hc, s, ?_, ⟨hk''.ismount.trans ht.ismount, ?_, ?_⟩⟩
      · refine hcs.congr fun b hb => ?_
        have := hbelow (hkids c hc).2 hb
        exact (hchild b (by omega)).symm
      · rw [hk''.um, ht.members]
      · rw [hk''.um, ht.length]
    · refine Alike.intro ⟨by rw [htop], by rw [htop], ?_⟩
      rw [htop]
      refine entries_mono (hs.alike hfree) fun a ha b hb hab => hab.congr (fun k hk => ?_) fun k hk => ?_
      · have := hbelow (hkids a ha).2 hk
        exact shown_of_eq (hold k (by omega)).symm
      · have hb' := hs.fresh b hb
        have hk' := hk.induct (Q := fun k => h₀.next ≤ k ∧ k < h₂.next) ⟨hb'.1, hb'.2.1⟩
          fun a b ha hb => by
            have := (hs.made a ha.1 ha.2).order b hb
            omega
        exact hshown k (by omega)

end NixMark.Mnt
