import Mathlib.Data.List.Nodup
import NixMark.Mnt.Copy

/-!
# What a call may change

* `Sound`: the `Mount`s in a `Mount` are younger, and know it.
* `Edit r h h'`: the call keeps the heap sound, and writes to the tree of `r` only.
* `Edit.mntmount`, `Edit.mntunmount`: the calls.
-/

namespace NixMark.Mnt

open Lib

variable {C : Type} {h h' h₁ h₂ : Heap C} {n m k r d : ℕ} {l ins pre post : List (Mounted C)}

def Sound (h : Heap C) : Prop := ∀ k, Node h k

theorem Sound.ordered (hs : Sound h) : Ordered h := fun k => (hs k).order

theorem Sound.parent (hs : Sound h) : ∀ a b, b ∈ h.children a → (h.mnt b).parent = some a :=
  fun a => (hs a).parent

/-- A name space. -/
structure Root (h : Heap C) (r : ℕ) : Prop where
  lt : r < h.next
  parent : (h.mnt r).parent = none

structure Edit (r : ℕ) (h h' : Heap C) : Prop where
  sound : Sound h'
  root : Root h' r
  next : h.next ≤ h'.next
  kept : ∀ k, k < h.next → ¬ Below h.children r k → h'.mnt k = h.mnt k
  below : ∀ k, k < h.next → Below h'.children r k → Below h.children r k

theorem Edit.refl (hs : Sound h) (hr : Root h r) : Edit r h h :=
  ⟨hs, hr, le_rfl, fun _ _ _ => rfl, fun _ _ => id⟩

theorem Edit.trans (he : Edit r h h') (he' : Edit r h' h₂) : Edit r h h₂ where
  sound := he'.sound
  root := he'.root
  next := he.next.trans he'.next
  kept k hk hb := by
    rw [he'.kept k (hk.trans_le he.next) fun hb' => hb (he.below k hk hb'), he.kept k hk hb]
  below k hk hb := he.below k hk (he'.below k (hk.trans_le he.next) hb)

/-- Another name space does not change. -/
theorem Edit.other {r' : ℕ} (he : Edit r h h') (hs : Sound h) (hr : Root h r) (hr' : Root h r')
    (hne : r' ≠ r) : ∀ k, Below h.children r' k → h'.mnt k = h.mnt k := fun k hk =>
  he.kept k (hs.ordered.lt hk hr'.lt) fun hb =>
    hne (Below.unique hs.parent hr'.parent hr.parent hk hb)

/-- A write to one `Mount` that leaves no new `Mount` in it. -/
theorem Edit.set (hs : Sound h) (hr : Root h r) (hn : Below h.children r n) {x : Mount C}
    (hx : x.parent = (h.mnt n).parent) (hk : (kids x.um).Sublist (h.children n)) :
    Edit r h (h.set n x) := by
  have hsub : ∀ k, ((h.set n x).children k).Sublist (h.children k) := by
    intro k
    unfold Heap.children
    by_cases hkn : k = n
    · rw [hkn, set_self]
      exact hk
    · rw [set_of_ne hkn]
  have hparent : ∀ k, ((h.set n x).mnt k).parent = (h.mnt k).parent := by
    intro k
    by_cases hkn : k = n
    · rw [hkn, set_self, hx]
    · rw [set_of_ne hkn]
  refine ⟨fun k => ⟨fun c hc => (hs k).order c ((hsub k).subset hc), fun c hc => ?_,
    (hs k).nodup.sublist (hsub k)⟩, ⟨hr.lt, by rw [hparent, hr.parent]⟩, le_rfl, fun k _ hb => ?_,
    fun k _ hb => ?_⟩
  · rw [hparent]
    exact (hs k).parent c ((hsub k).subset hc)
  · refine set_of_ne ?_
    rintro rfl
    exact hb hn
  · exact hb.induct .here fun a b ha hab => ha.step ((hsub a).subset hab)

/-! ## New entries -/

theorem adopt_next (n : ℕ) : ∀ (l : List (Mounted C)) (h : Heap C), (Heap.adopt n h l).next = h.next
  | [], _ => rfl
  | .chan _ :: l, _ => adopt_next n l _
  | .child _ :: l, _ => adopt_next n l _

theorem adopt_mnt (n : ℕ) : ∀ (l : List (Mounted C)) (h : Heap C) (k : ℕ),
    (Heap.adopt n h l).mnt k = { h.mnt k with
      parent := if k ∈ kids l then some n else (h.mnt k).parent
      ismount := if k = n then (h.mnt k).ismount + (members l).length else (h.mnt k).ismount }
  | [], h, k => by simp [Heap.adopt, kids, members]
  | .chan c :: l, h, k => by
    rw [Heap.adopt, adopt_mnt n l]
    by_cases hk : k = n
    · subst hk
      simp only [Heap.addismount, set_self, if_true, members_chan, List.length_cons,
        Mount.mk.injEq, true_and]
      refine ⟨rfl, ?_⟩
      omega
    · simp only [Heap.addismount, set_of_ne hk, if_neg hk]
      rfl
  | .child c :: l, h, k => by
    rw [Heap.adopt, adopt_mnt n l]
    by_cases hk : k = c
    · subst hk
      simp [Heap.setparent]
    · simp [Heap.setparent, set_of_ne hk, hk]

theorem Added.not_mem (ha : Added h n pre post ins h₂) (hk : k < h.next) : k ∉ kids ins :=
  fun hc => absurd (ha.fresh k hc).1 (by omega)

theorem Added.children (hn : (h.mnt n).um = pre ++ post) (ha : Added h n pre post ins h₂) :
    (∀ k, k < h.next → k ≠ n → h₂.children k = h.children k) ∧
    (∀ c, c ∈ h₂.children n ↔ c ∈ kids ins ∨ c ∈ h.children n) := by
  refine ⟨fun k hk hkn => ?_, fun c => ?_⟩
  · rw [Heap.children, ha.old k hk hkn, Heap.children]
  · rw [Heap.children, ha.dest, Heap.children, hn]
    change c ∈ kids (pre ++ ins ++ post) ↔ _ ∨ c ∈ kids (pre ++ post)
    rw [kids_append, kids_append, kids_append, List.mem_append, List.mem_append, List.mem_append]
    tauto

theorem adopt_children (n : ℕ) (l : List (Mounted C)) (h : Heap C) (k : ℕ) :
    (h.adopt n l).children k = h.children k := by
  rw [Heap.children, adopt_mnt, Heap.children]

/-- Nothing leaves the tree. -/
theorem Added.below (hn : (h.mnt n).um = pre ++ post) (ha : Added h n pre post ins h₂)
    (ho : Ordered h) (hr : r < h.next) (hb : Below h.children r k) :
    Below (h₂.adopt n ins).children r k := by
  obtain ⟨hold, hdest⟩ := ha.children hn
  induction hb with
  | here => exact .here
  | @step a b hab hb ih =>
    refine ih.step ?_
    rw [adopt_children]
    by_cases han : a = n
    · rw [han] at hb ⊢
      exact (hdest b).mpr (.inr hb)
    · rwa [hold a (ho.lt hab hr) han]

/-- New entries come to the list of a `Mount` in the tree. -/
theorem Edit.added (hs : Sound h) (hr : Root h r) (hb : Below h.children r n)
    (hn : (h.mnt n).um = pre ++ post) (ha : Added h n pre post ins h₂) :
    Edit r h (h₂.adopt n ins) := by
  obtain ⟨h', hh'⟩ : ∃ h', h' = h₂.adopt n ins := ⟨_, rfl⟩
  rw [← hh']
  have hlt : n < h.next := hs.ordered.lt hb hr.lt
  have hnext : h'.next = h₂.next := by rw [hh', adopt_next]
  have hnext₂ := ha.next
  have hmnt : ∀ k, h'.mnt k = _ := fun k => by rw [hh', adopt_mnt n ins h₂ k]
  obtain ⟨hold, hdest⟩ := ha.children hn
  have hchild : ∀ k, h'.children k = h₂.children k := fun k => by
    rw [Heap.children, hmnt, Heap.children]
  have hparent : ∀ k, k ∉ kids ins → (h'.mnt k).parent = (h₂.mnt k).parent := fun k hk => by
    rw [hmnt]
    exact if_neg hk
  have hparent_old : ∀ k, k < h.next → (h'.mnt k).parent = (h.mnt k).parent := by
    intro k hk
    rw [hparent k (ha.not_mem hk)]
    by_cases hkn : k = n
    · rw [hkn, ha.dest]
    · rw [ha.old k hk hkn]
  have hnode : ∀ k, Node h' k := by
    intro k
    obtain hk | hk | hk : k < h.next ∨ (h.next ≤ k ∧ k < h₂.next) ∨ h₂.next ≤ k := by omega
    · by_cases hkn : k = n
      · subst hkn
        refine ⟨fun c hc => ?_, fun c hc => ?_, ?_⟩
        · rw [hchild, hdest] at hc
          obtain hc | hc := hc
          · have := ha.fresh c hc
            omega
          · have := (hs k).order c hc
            omega
        · rw [hchild, hdest] at hc
          obtain hc | hc := hc
          · rw [hmnt]
            exact if_pos hc
          · rw [hparent_old c ((hs k).order c hc).2, (hs k).parent c hc]
        · rw [hchild, Heap.children, ha.dest]
          change (kids (pre ++ ins ++ post)).Nodup
          have hnd := (hs k).nodup
          rw [Heap.children, hn] at hnd
          change (kids (pre ++ post)).Nodup at hnd
          rw [kids_append] at hnd
          rw [kids_append, kids_append, List.append_assoc, (List.perm_append_comm_assoc _ _ _).nodup_iff,
            List.nodup_append]
          refine ⟨ha.nodup, hnd, ?_⟩
          rintro c hc b hb' rfl
          have hcn : c ∈ h.children k := by
            rw [Heap.children, hn]
            change c ∈ kids (pre ++ post)
            rwa [kids_append]
          have := ((hs k).order c hcn).2
          exact ha.not_mem this hc
      · refine ⟨fun c hc => ?_, fun c hc => ?_, ?_⟩
        · rw [hchild, hold k hk hkn] at hc
          have := (hs k).order c hc
          omega
        · rw [hchild, hold k hk hkn] at hc
          rw [hparent_old c ((hs k).order c hc).2, (hs k).parent c hc]
        · rw [hchild, hold k hk hkn]
          exact (hs k).nodup
    · have hm := ha.made k hk.1 hk.2
      refine ⟨fun c hc => ?_, fun c hc => ?_, by rw [hchild]; exact hm.nodup⟩
      · rw [hchild] at hc
        rw [hnext]
        exact hm.order c hc
      · rw [hchild] at hc
        have hp := hm.parent c hc
        rw [hparent c fun hc' => ?_, hp]
        rw [(ha.fresh c hc').2.2] at hp
        cases hp
    · have hempty : ∀ c, c ∉ h'.children k := by
        intro c hc
        rw [hchild, Heap.children, ha.rest k hk] at hc
        have := (hs k).order c hc
        omega
      refine ⟨fun c hc => absurd hc (hempty c), fun c hc => absurd hc (hempty c), ?_⟩
      rw [List.eq_nil_iff_forall_not_mem.mpr hempty]
      exact List.nodup_nil
  refine ⟨hnode, ⟨hr.lt.trans_le (by omega), by rw [hparent_old r hr.lt, hr.parent]⟩, by omega,
    fun k hk hb' => ?_, fun k hk hb' => ?_⟩
  · have hkn : k ≠ n := by
      rintro rfl
      exact hb' hb
    rw [hmnt, if_neg (ha.not_mem hk), if_neg hkn, ha.old k hk hkn]
  · refine hb'.induct (Q := fun k => k < h.next → Below h.children r k) (fun _ => .here)
      (fun a b hab hb' hbn => ?_) hk
    have hlt' := (hnode a).order b hb'
    have hba := hab (by omega)
    rw [hchild] at hb'
    by_cases han : a = n
    · rw [han, hdest] at hb'
      rw [han] at hba
      exact hba.step (hb'.resolve_left (ha.not_mem hbn))
    · rw [hold a (by omega) han] at hb'
      exact hba.step hb'

/-! ## Mounting -/

variable {dev : Dev C}

/-- A `Mount` without entries comes to the front of a list. -/
theorem Added.newmnt (hn : n < h.next) (el : String) :
    Added h n [] (h.mnt n).um [.child h.next]
      ((h.newmnt el).setum n (.child h.next :: (h.mnt n).um)) where
  next := Nat.le_succ _
  old k hk hkn := by rw [setum_of_ne hkn, newmnt_of_ne hk.ne]
  rest k hk := by
    have hk : h.next + 1 ≤ k := hk
    rw [setum_of_ne (by omega), newmnt_of_ne (by omega)]
  dest := by
    rw [setum_self, newmnt_of_ne hn.ne]
    rfl
  fresh c hc := by
    obtain rfl : c = h.next := List.mem_singleton.mp hc
    rw [setum_of_ne hn.ne', newmnt_self]
    exact ⟨le_rfl, Nat.lt_succ_self _, rfl⟩
  nodup := List.nodup_singleton _
  made k hk hk' := by
    have hk' : k < h.next + 1 := hk'
    obtain rfl : k = h.next := by omega
    have hc : ((h.newmnt el).setum n (.child h.next :: (h.mnt n).um)).children h.next = [] := by
      rw [Heap.children, setum_of_ne hn.ne', newmnt_self]
      rfl
    refine ⟨fun c h' => ?_, fun c h' => ?_, by rw [hc]; exact List.nodup_nil⟩
    · rw [hc] at h'
      cases h'
    · rw [hc] at h'
      cases h'

/-- The entries that `addmntel` adds. -/
def Heap.entries (h : Heap C) (c : C) : Option ℕ → List (Mounted C)
  | none => [.chan c]
  | some src => (h.mnt src).um

structure Mounting (h : Heap C) (n : ℕ) (c : C) (mnt : Option ℕ) (flags : Order)
    (pre post ins : List (Mounted C)) (h₂ : Heap C) : Prop extends
    Spliced h n pre post (h.entries c mnt) ins h₂ where
  um : (h.mnt n).um = pre ++ post
  after : flags = .MAFTER → post = []
  before : flags ≠ .MAFTER → pre = []
  apart : flags = .MAFTER → (h.mnt n).um ≠ [] → mnt ≠ some n

/-- The list of a `Mount` is not copied behind itself. -/
theorem addmntel_run (c : C) (mnt : Option ℕ) (flags : Order) (hs : Sound h) (hn : n < h.next)
    (hne : flags = .MAFTER → (h.mnt n).um ≠ [] → mnt ≠ some n) :
    ∃ pre post ins h₂, Mounting h n c mnt flags pre post ins h₂ ∧
      h.addmntel n (.chan c) mnt flags = some (h₂.adopt n ins) := by
  obtain ⟨pre, hpre⟩ : ∃ pre, pre = if flags = .MAFTER then (h.mnt n).um else [] := ⟨_, rfl⟩
  obtain ⟨post, hpost⟩ : ∃ post, post = if flags = .MAFTER then [] else (h.mnt n).um := ⟨_, rfl⟩
  have hafter : flags = .MAFTER → post = [] := fun hf => by rw [hpost, if_pos hf]
  have hbefore : flags ≠ .MAFTER → pre = [] := fun hf => by rw [hpre, if_neg hf]
  have hum : (h.mnt n).um = pre ++ post := by
    rw [hpre, hpost]
    split_ifs
    · rw [List.append_nil]
    · rfl
  unfold Heap.addmntel
  simp only [← hpre, ← hpost]
  cases mnt with
  | none =>
    have hum' : ((h.setum n (pre ++ .chan c :: post)).mnt n).um = (pre ++ [.chan c]) ++ post := by
      rw [setum_self, List.append_assoc]
      rfl
    exact ⟨pre, post, [.chan c], _, ⟨.chan hs.ordered hn hum (fun _ h => absurd h List.not_mem_nil)
      rfl (.nil hum'), hum, hafter, hbefore, hne⟩, rfl⟩
  | some src =>
    obtain ⟨ins, h₂, hd, hsp⟩ := dupum_spec h pre post (h.mnt src).um hn hs.ordered hum (fun c hc => ((hs src).order c hc).2)
      fun h₁ hw c hc => dupmnt_spec h₁.next h₁ h₁.next c hw.ordered le_rfl
        (fun k _ b hb => (hw.ordered k b hb).2) (((hs src).order c hc).2.trans_le hw.next) (by omega)
    refine ⟨pre, post, ins, h₂, ⟨hsp, hum, hafter, hbefore, hne⟩, ?_⟩
    simp only
    rw [if_neg fun ⟨he, hf, hne'⟩ => hne hf hne' (congrArg some he), hd]

variable {c : C} {mnt : Option ℕ} {flags : Order}

theorem addmntel_spec (hs : Sound h) (hn : n < h.next)
    (hrun : h.addmntel n (.chan c) mnt flags = some h') :
    ∃ pre post ins h₂, Mounting h n c mnt flags pre post ins h₂ ∧ h' = h₂.adopt n ins := by
  have hne : flags = .MAFTER → (h.mnt n).um ≠ [] → mnt ≠ some n := by
    rintro hf hne rfl
    unfold Heap.addmntel at hrun
    simp only at hrun
    rw [if_pos ⟨trivial, hf, hne⟩] at hrun
    cases hrun
  obtain ⟨pre, post, ins, h₂, hm, hrun'⟩ := addmntel_run c mnt flags hs hn hne
  rw [hrun] at hrun'
  exact ⟨pre, post, ins, h₂, hm, Option.some.inj hrun'⟩

theorem Edit.mkmnts (hs : Sound h) (hr : Root h r) (hb : Below h.children r n) (els : List String) :
    Edit r h (h.mkmnts n els).2 ∧ Below (h.mkmnts n els).2.children r (h.mkmnts n els).1 := by
  induction els generalizing h n with
  | nil => exact ⟨.refl hs hr, hb⟩
  | cons el els ih =>
    have hn := hs.ordered.lt hb hr.lt
    have ha := Added.newmnt hn el
    have he := Edit.added hs hr hb rfl ha
    have hb' : Below (((h.newmnt el).setum n (.child h.next :: (h.mnt n).um)).adopt n
        [.child h.next]).children r h.next := by
      refine (ha.below rfl hs.ordered hr.lt hb).step ?_
      rw [adopt_children]
      exact ((ha.children rfl).2 _).mpr (.inl List.mem_cons_self)
    obtain ⟨he', hb''⟩ := ih he.sound he.root hb'
    rw [Heap.mkmnts]
    simp only [newmnt_of_ne hn.ne]
    exact ⟨he.trans he', hb''⟩

/-- A write to `n` leaves it in the tree. -/
theorem below_set {x : Mount C} (hs : Sound h) (hb : Below h.children r n) :
    Below (h.set n x).children r n := by
  have hle : ∀ b, Below h.children r b → b ≤ n → Below (h.set n x).children r b := by
    intro b hb
    induction hb with
    | here => exact fun _ => .here
    | @step a b _ hab ih =>
      intro hbn
      have hlt := ((hs a).order b hab).1
      refine (ih (by omega)).step ?_
      rwa [Heap.children, set_of_ne (by omega)]
  exact hle n hb le_rfl

/-- The `Mount` is made ready for `addmntel`. -/
def Heap.ready (dev : Dev C) (h : Heap C) (n : ℕ) (flags : Order) : Heap C :=
  if flags = .MREPL then h.putum n
  else if (h.mnt n).ismount = 0 then h.initunion dev n else h

/-- The channels of the old contents of `els` below `n`. -/
def Heap.old (dev : Dev C) (h : Heap C) (n : ℕ) (els : List String) : List C :=
  match h.climb h.next (some n) els with
  | none => []
  | some (pmnt, els) => (h.chans pmnt).filterMap fun c => Heap.clwalk dev c els

theorem setum_addismount (um : List (Mounted C)) (i : ℤ) : (h.setum n um).addismount n i =
    h.set n { h.mnt n with
      um := um
      ismount := (h.mnt n).ismount + i } := by
  simp only [Heap.addismount, Heap.setum, Heap.set, Function.update_idem, Function.update_self]

theorem initunion_eq : h.initunion dev n = h.set n { h.mnt n with
    um := (h.mnt n).um ++ (h.old dev n []).map .chan
    ismount := (h.mnt n).ismount + (h.old dev n []).length } := by
  unfold Heap.initunion Heap.old
  cases h.climb h.next (some n) [] with
  | none =>
    simp only [List.map_nil, List.append_nil, List.length_nil]
    rw [Int.natCast_zero, Int.add_zero]
    unfold Heap.set
    rw [Function.update_eq_self]
  | some x => exact setum_addismount _ _

theorem kids_map_chan (cs : List C) : kids (cs.map Mounted.chan) = [] := by
  rw [kids, List.filterMap_map]
  exact List.filterMap_eq_nil_iff.mpr fun _ _ => rfl

theorem Edit.ready (dev : Dev C) (flags : Order) (hs : Sound h) (hr : Root h r) (hb : Below h.children r n) :
    Edit r h (h.ready dev n flags) ∧ Below (h.ready dev n flags).children r n := by
  unfold Heap.ready
  split_ifs
  · exact ⟨.set hs hr hb rfl (List.nil_sublist _), below_set hs hb⟩
  · rw [initunion_eq]
    refine ⟨.set hs hr hb rfl ?_, below_set hs hb⟩
    change (kids ((h.mnt n).um ++ _)).Sublist _
    rw [kids_append, kids_map_chan, List.append_nil]
    exact .refl _
  · exact ⟨.refl hs hr, hb⟩

/-! ## Walking -/

variable {nc : Bool}

theorem mntwalk1_child {union : Bool} {el : String} {els : List String}
    (hf : h.mntwalk1 dev nc union el els l = .child k) : k ∈ kids l ∧ (h.mnt k).elem = el := by
  induction l with
  | nil => cases hf
  | cons x l ih =>
    cases x with
    | chan c =>
      rw [Heap.mntwalk1] at hf
      split_ifs at hf
      · split at hf
        · exact ih hf
        · split_ifs at hf
          exact ih hf
        · cases hf
      · exact ih hf
    | child c =>
      rw [Heap.mntwalk1] at hf
      split_ifs at hf with hel
      · cases hf
        exact ⟨List.mem_cons_self, hel⟩
      · obtain ⟨hk, he⟩ := ih hf
        exact ⟨List.mem_cons_of_mem _ hk, he⟩

theorem walkloop_below {ismount : Bool} (p : List String) {w : Heap.Walked C}
    (hn : Below h.children r n) (hw : Below h.children r w.mp) :
    Below h.children r (h.walkloop dev nc ismount p n w).mp := by
  induction p generalizing n w with
  | nil => exact hw
  | cons el els ih =>
    rw [Heap.walkloop]
    split
    · exact hw
    · exact hw
    · rename_i k hf
      have hk : Below h.children r k := hn.step (mntwalk1_child hf).1
      refine ih hk ?_
      split_ifs
      · exact hk
      · exact hw

theorem mntwalk_below {ismount : Bool} (p : List String) :
    Below h.children r (h.mntwalk dev nc ismount r p).mp :=
  walkloop_below p .here .here

variable {p : List String}

theorem mntmount_eq (n : ℕ) (h₀ : Heap C) (hx : (n, h₀) = h.mkmnts (h.mntwalk dev false true r p).mp
      (p.drop (h.mntwalk dev false true r p).i)) :
    h.mntmount dev r p c mnt flags = (h₀.ready dev n flags).addmntel n (.chan c) mnt flags := by
  rw [Heap.mntmount]
  simp only [← hx]
  rfl

/-- The steps of `mntmount`. -/
theorem mntmount_spec (hs : Sound h) (hr : Root h r)
    (hrun : h.mntmount dev r p c mnt flags = some h') :
    ∃ w n h₀ h₁ pre post ins h₂, w = h.mntwalk dev false true r p ∧
      (n, h₀) = h.mkmnts w.mp (p.drop w.i) ∧ Edit r h h₀ ∧ Below h₀.children r n ∧
      h₁ = h₀.ready dev n flags ∧ Edit r h₀ h₁ ∧ Below h₁.children r n ∧
      Mounting h₁ n c mnt flags pre post ins h₂ ∧ h' = h₂.adopt n ins := by
  obtain ⟨w, hw⟩ : ∃ w, w = h.mntwalk dev false true r p := ⟨_, rfl⟩
  obtain ⟨⟨n, h₀⟩, hx⟩ : ∃ x, x = h.mkmnts w.mp (p.drop w.i) := ⟨_, rfl⟩
  obtain ⟨h₁, hh₁⟩ : ∃ h₁, h₁ = h₀.ready dev n flags := ⟨_, rfl⟩
  obtain ⟨he₀, hb₀⟩ := Edit.mkmnts hs hr (hw ▸ mntwalk_below p) (p.drop w.i)
  rw [← hx] at he₀ hb₀
  obtain ⟨he₁, hb₁⟩ := Edit.ready dev flags he₀.sound he₀.root hb₀
  rw [← hh₁] at he₁ hb₁
  have hadd : h₁.addmntel n (.chan c) mnt flags = some h' := by
    rw [← hrun, hh₁, mntmount_eq n h₀ (by rw [hx, hw])]
  obtain ⟨pre, post, ins, h₂, hm, hh'⟩ :=
    addmntel_spec he₁.sound (he₁.sound.ordered.lt hb₁ he₁.root.lt) hadd
  exact ⟨w, n, h₀, h₁, pre, post, ins, h₂, hw, hx, he₀, hb₀, hh₁, he₁, hb₁, hm, hh'⟩

theorem Edit.mntmount (hs : Sound h) (hr : Root h r)
    (hrun : h.mntmount dev r p c mnt flags = some h') : Edit r h h' := by
  obtain ⟨w, n, h₀, h₁, pre, post, ins, h₂, -, -, he₀, -, -, he₁, hb₁, hm, rfl⟩ :=
    mntmount_spec hs hr hrun
  exact (he₀.trans he₁).trans (.added he₁.sound he₁.root hb₁ hm.um hm.toAdded)

/-! ## Unmounting -/

theorem unlink_spec {test : Mounted C → Bool} {l' : List (Mounted C)}
    (hu : Heap.unlink test l = some l') :
    ∃ l₁ m l₂, l = l₁ ++ m :: l₂ ∧ l' = l₁ ++ l₂ ∧ test m = true ∧ ∀ x ∈ l₁, test x = false := by
  induction l generalizing l' with
  | nil => cases hu
  | cons x l ih =>
    rw [Heap.unlink] at hu
    split_ifs at hu with hx
    · cases hu
      exact ⟨[], x, l, rfl, rfl, hx, List.forall_mem_nil _⟩
    · obtain ⟨l'', hl'', rfl⟩ := Option.map_eq_some_iff.mp hu
      obtain ⟨l₁, m, l₂, rfl, rfl, hm, h₁⟩ := ih hl''
      exact ⟨x :: l₁, m, l₂, rfl, rfl, hm, List.forall_mem_cons.mpr ⟨Bool.eq_false_iff.mpr hx, h₁⟩⟩

/-- An entry leaves the list of a `Mount`. -/
theorem Edit.leave {m : Mounted C} {l₁ l₂ : List (Mounted C)} (hs : Sound h) (hr : Root h r)
    (hb : Below h.children r n) (hn : (h.mnt n).um = l₁ ++ m :: l₂) :
    Edit r h ((h.setum n (l₁ ++ l₂)).addismount n (-1)) ∧
      Below ((h.setum n (l₁ ++ l₂)).addismount n (-1)).children r n := by
  rw [setum_addismount]
  refine ⟨.set hs hr hb rfl ?_, below_set hs hb⟩
  change (kids (l₁ ++ l₂)).Sublist (kids (h.mnt n).um)
  rw [hn]
  exact ((List.sublist_cons_self m l₂).append_left l₁).filterMap _

/-- A `Mount` is taken out of its parent. -/
def Heap.remove (h : Heap C) (q n : ℕ) (um : List (Mounted C)) : Heap C :=
  (h.setum q um).setparent n none

section Remove

variable {q : ℕ} {l₁ l₂ um : List (Mounted C)}

theorem remove_of_ne (hkn : k ≠ n) (hkq : k ≠ q) : (h.remove q n um).mnt k = h.mnt k := by
  rw [Heap.remove, Heap.setparent, set_of_ne hkn, setum_of_ne hkq]

theorem remove_parent (hqn : q ≠ n) : (h.remove q n um).mnt q = { h.mnt q with um := um } := by
  rw [Heap.remove, Heap.setparent, set_of_ne hqn, setum_self]

theorem remove_self (hqn : q ≠ n) : (h.remove q n um).mnt n = { h.mnt n with parent := none } := by
  rw [Heap.remove, Heap.setparent, set_self, setum_of_ne hqn.symm]

theorem mem_removed (hs : Sound h) (hq : (h.mnt q).um = l₁ ++ .child n :: l₂) :
    n ∈ h.children q ∧ q ≠ n := by
  have hn : n ∈ h.children q := by
    rw [Heap.children, hq]
    exact mem_kids.mpr (List.mem_append_right _ List.mem_cons_self)
  exact ⟨hn, ((hs q).order n hn).1.ne⟩

theorem remove_children (hs : Sound h) (hq : (h.mnt q).um = l₁ ++ .child n :: l₂) (k : ℕ) :
    ((h.remove q n (l₁ ++ l₂)).children k).Sublist (h.children k) ∧
      n ∉ (h.remove q n (l₁ ++ l₂)).children k := by
  obtain ⟨hn, hqn⟩ := mem_removed hs hq
  have hnd := (hs q).nodup
  rw [Heap.children, hq, ← kids, kids_append, kids_child] at hnd
  obtain ⟨hn', -⟩ := List.nodup_cons.mp (List.perm_middle.nodup_iff.mp hnd)
  by_cases hk : k = q
  · rw [hk, Heap.children, remove_parent hqn, Heap.children, hq, ← kids, ← kids, kids_append,
      kids_append, kids_child]
    exact ⟨(List.sublist_cons_self n _).append_left _, hn'⟩
  · have he : (h.remove q n (l₁ ++ l₂)).children k = h.children k := by
      unfold Heap.children
      by_cases hkn : k = n
      · rw [hkn, remove_self hqn]
      · rw [remove_of_ne hkn hk]
    rw [he]
    refine ⟨.refl _, fun hc => ?_⟩
    have hp := hs.parent k n hc
    rw [hs.parent q n hn] at hp
    exact hk (Option.some.inj hp).symm

theorem Edit.remove (hs : Sound h) (hr : Root h r) (hb : Below h.children r q)
    (hq : (h.mnt q).um = l₁ ++ .child n :: l₂) : Edit r h (h.remove q n (l₁ ++ l₂)) := by
  obtain ⟨hn, hqn⟩ := mem_removed hs hq
  have hchild := remove_children hs hq
  have hparent : ∀ k, k ≠ n → ((h.remove q n (l₁ ++ l₂)).mnt k).parent = (h.mnt k).parent := by
    intro k hk
    by_cases hkq : k = q
    · rw [hkq, remove_parent hqn]
    · rw [remove_of_ne hk hkq]
  have hnr : r ≠ n := by
    rintro rfl
    have := hs.parent q r hn
    rw [hr.parent] at this
    cases this
  refine ⟨fun k => ⟨fun c hc => (hs k).order c ((hchild k).1.subset hc), fun c hc => ?_,
    (hs k).nodup.sublist (hchild k).1⟩, ⟨hr.lt, by rw [hparent r hnr, hr.parent]⟩, le_rfl,
    fun k _ hbk => ?_, fun k _ hbk => ?_⟩
  · have hcn : c ≠ n := fun he => (hchild k).2 (he ▸ hc)
    rw [hparent c hcn]
    exact hs.parent k c ((hchild k).1.subset hc)
  · refine remove_of_ne ?_ ?_
    · rintro rfl
      exact hbk (hb.step hn)
    · rintro rfl
      exact hbk hb
  · exact hbk.induct .here fun a b ha hab => ha.step ((hchild a).1.subset hab)

theorem below_remove (n : ℕ) (um : List (Mounted C)) (hs : Sound h) (hb : Below h.children r q) :
    Below (h.remove q n um).children r q := by
  refine (below_set (x := { h.mnt q with um := um }) hs hb).congr fun b _ => ?_
  unfold Heap.children
  by_cases hbn : b = n
  · rw [hbn, Heap.remove, Heap.setparent, set_self]
    rfl
  · rw [Heap.remove, Heap.setparent, set_of_ne hbn]
    rfl

end Remove

/-- The `Mount` that is taken out is in the list of its parent. -/
theorem parent_below (hs : Sound h) (hr : Root h r) (hb : Below h.children r n) {q : ℕ}
    (hq : (h.mnt n).parent = some q) : Below h.children r q ∧ n ∈ h.children q := by
  obtain rfl | ⟨b, hb, hn⟩ := hb.cases_root
  · rw [hr.parent] at hq
    cases hq
  · have := hs.parent b n hn
    rw [hq] at this
    rw [Option.some.inj this]
    exact ⟨hb, hn⟩

theorem child?_eq {m : Mounted C} (hm : decide (m.child? = some n) = true) : m = .child n := by
  have hm := of_decide_eq_true hm
  cases m with
  | chan c => cases hm
  | child k =>
    cases hm
    rfl

theorem Edit.collect {e : Option Error} (fuel : ℕ) : ∀ {h : Heap C} {n : ℕ}, Sound h → Root h r →
    Below h.children r n → h.collect fuel n = some (h', e) → Edit r h h' := by
  induction fuel with
  | zero => exact fun _ _ _ hrun => nomatch hrun
  | succ fuel ih =>
    intro h n hs hr hb hrun
    rw [Heap.collect] at hrun
    split at hrun
    · cases hrun
      exact .refl hs hr
    · rename_i q hq
      split at hrun
      · cases hrun
      · rename_i um hum
        obtain ⟨hbq, -⟩ := parent_below hs hr hb hq
        obtain ⟨l₁, m, l₂, hl, rfl, hm, -⟩ := unlink_spec hum
        rw [child?_eq hm] at hl
        have he := Edit.remove hs hr hbq hl
        have hbq' := below_remove n (l₁ ++ l₂) hs hbq
        simp only at hrun
        split_ifs at hrun
        · cases hrun
          exact he
        · exact he.trans (ih he.sound he.root hbq' hrun)

theorem Edit.mntunmount {c : Option C} {e : Option Error} (hs : Sound h) (hr : Root h r)
    (hrun : h.mntunmount dev r p c = some (h', e)) : Edit r h h' := by
  have hb : Below h.children r (h.mntwalk dev false true r p).mp := mntwalk_below p
  unfold Heap.mntunmount at hrun
  simp only at hrun
  split_ifs at hrun with hi hm
  · cases hrun
    exact .refl hs hr
  · cases hrun
    exact .refl hs hr
  · cases c with
    | none => exact .collect _ hs hr hb hrun
    | some c =>
      simp only at hrun
      split at hrun
      · cases hrun
        exact .refl hs hr
      · rename_i um hum
        obtain ⟨l₁, m, l₂, hl, rfl, -, -⟩ := unlink_spec hum
        have he := Edit.leave hs hr hb hl
        split_ifs at hrun
        · cases hrun
          exact he.1
        · exact he.1.trans (.collect _ he.1.sound he.1.root he.2 hrun)

end NixMark.Mnt
