import NixMark.Mnt.Names
import NixMark.Mnt.Path

/-!
# The counts of a mount table

* `Good`: `ismount` counts the channels, and there is an entry; `Slash`: the first channel of a root
  is not counted.
* `Open`: what holds while a `Mount` is written; `Closed`: what holds between the calls.
* `Clear`: a union can be mounted without a copy of the `Mount` that is written.
* `mnt_counts`: what holds in every run.
-/

namespace NixMark.Mnt

open Lib

variable {C : Type} {h h' h₀ h₁ h₂ : Heap C} {n m k r q u : ℕ} {l pre post ins : List (Mounted C)}
  {dev : Dev C} {el : String} {els p : List String} {flags : Order}

structure Good (m : Mount C) : Prop where
  ismount : m.ismount = (members m.um).length
  um : m.um ≠ []

/-- `setslash` does not count the channel. -/
structure Slash (m : Mount C) : Prop where
  ismount : m.ismount + 1 = (members m.um).length
  chan : members m.um ≠ []

theorem ne_nil_of_length {l l' : List (Mounted C)} (he : l'.length = l.length) (hl : l ≠ []) :
    l' ≠ [] := by
  rw [← List.length_pos_iff] at hl ⊢
  rwa [he]

theorem good_kept : Kept (Good : Mount C → Prop) := fun _ _ ht hg =>
  ⟨by rw [ht.ismount, ht.members, hg.ismount], ne_nil_of_length ht.length hg.um⟩

theorem slash_kept : Kept (Slash : Mount C → Prop) := fun _ _ ht hs =>
  ⟨by rw [ht.ismount, ht.members, hs.ismount], by rw [ht.members]; exact hs.chan⟩

theorem Slash.um {m : Mount C} (hm : Slash m) : m.um ≠ [] := fun h => hm.chan (by rw [h]; rfl)

/-- Between the calls. -/
structure Closed (h : Heap C) (r : ℕ) : Prop where
  slash : Slash (h.mnt r)
  held : ∀ a, ∀ c ∈ h.children a, Good (h.mnt c)

/-- The list of `n` is written. -/
structure Open (h : Heap C) (r n : ℕ) : Prop where
  slash : n ≠ r → Slash (h.mnt r)
  held : Held Good h n
  count : (h.mnt n).ismount + (if n = r then 1 else 0) = (members (h.mnt n).um).length

theorem Root.not_child (hr : Root h r) (hs : Sound h) : r ∉ h.children n := fun hc => by
  have := hs.parent n r hc
  rw [hr.parent] at this
  cases this

theorem Root.not_below {c : ℕ} (hr : Root h r) (hs : Sound h) (hc : c ∈ h.children n) :
    ¬ Below h.children c r := fun hb => by
  obtain rfl | ⟨b, -, hb⟩ := hb.cases_root
  · exact hr.not_child hs hc
  · exact hr.not_child hs hb

theorem Closed.good (hc : Closed h r) (hb : Below h.children r n) (hn : n ≠ r) :
    Good (h.mnt n) := by
  obtain rfl | ⟨b, -, hb⟩ := hb.cases_root
  · exact absurd rfl hn
  · exact hc.held b n hb

theorem Closed.um (hc : Closed h r) (hb : Below h.children r n) : (h.mnt n).um ≠ [] := by
  by_cases hn : n = r
  · rw [hn]
    exact hc.slash.um
  · exact (hc.good hb hn).um

theorem Closed.opened (hc : Closed h r) (hb : Below h.children r n) : Open h r n := by
  refine ⟨fun _ => hc.slash, fun a c hac _ => hc.held a c hac, ?_⟩
  split_ifs with hn
  · rw [hn]
    exact hc.slash.ismount
  · rw [Int.add_zero]
    exact (hc.good hb hn).ismount

theorem Open.closed (ho : Open h r n) (hs : Sound h) (hr : Root h r)
    (hum : n ≠ r → (h.mnt n).um ≠ []) (hchan : n = r → members (h.mnt n).um ≠ []) :
    Closed h r := by
  have hcount := ho.count
  refine ⟨?_, fun a c hac => ?_⟩
  · by_cases hn : n = r
    · rw [if_pos hn] at hcount
      rw [← hn]
      exact ⟨hcount, hchan hn⟩
    · exact ho.slash hn
  · by_cases hcn : c = n
    · have hn : n ≠ r := by
        rintro rfl
        rw [hcn] at hac
        exact hr.not_child hs hac
      rw [if_neg hn, Int.add_zero] at hcount
      rw [hcn]
      exact ⟨hcount, hum hn⟩
    · exact ho.held a c hac hcn

/-! ## Writes -/

theorem Open.set {x : Mount C} (ho : Open h r n) (hk : ∀ c ∈ kids x.um, c ∈ h.children n)
    (hx : x.ismount + (if n = r then 1 else 0) = (members x.um).length) :
    Open (h.set n x) r n := by
  refine ⟨fun hn => ?_, fun a c hac hcn => ?_, ?_⟩
  · rw [set_of_ne hn.symm]
    exact ho.slash hn
  · rw [set_of_ne hcn]
    refine ho.held a c ?_ hcn
    unfold Heap.children at hac
    by_cases han : a = n
    · rw [han, set_self] at hac
      rw [han]
      exact hk c hac
    · rwa [set_of_ne han] at hac
  · rw [set_self]
    exact hx

theorem Open.mkmnt (ho : Open h r n) (hs : Sound h) (hr : Root h r) (hn : n < h.next)
    (hchan : n = r → members (h.mnt n).um ≠ []) : Open (h.mkmnt n el) r h.next := by
  have hcount := ho.count
  refine ⟨fun _ => ?_, fun a c hac hcn => ?_, ?_⟩
  · by_cases hrn : r = n
    · rw [hrn, mkmnt_dest hn]
      rw [if_pos hrn.symm] at hcount
      exact ⟨hcount, hchan hrn.symm⟩
    · rw [mkmnt_of_ne hr.lt.ne hrn]
      exact ho.slash (Ne.symm hrn)
  · have hac' : c ∈ h.children a := by
      unfold Heap.children at hac ⊢
      by_cases han : a = n
      · rw [han, mkmnt_dest hn] at hac
        rw [han]
        exact (List.mem_cons.mp hac).resolve_left hcn
      · by_cases ha : a = h.next
        · rw [ha, mkmnt_new hn] at hac
          cases hac
        · rwa [mkmnt_of_ne ha han] at hac
    by_cases hc : c = n
    · have hnr : n ≠ r := by
        rintro rfl
        rw [hc] at hac'
        exact hr.not_child hs hac'
      rw [if_neg hnr, Int.add_zero] at hcount
      rw [hc, mkmnt_dest hn]
      exact ⟨hcount, List.cons_ne_nil _ _⟩
    · rw [mkmnt_of_ne hcn hc]
      exact ho.held a c hac' hc
  · rw [mkmnt_new hn, if_neg hr.lt.ne']
    rfl

theorem Open.mkmnts (els : List String) (ho : Open h r n) (hs : Sound h) (hr : Root h r) (hb : Below h.children r n)
    (hchan : n = r → members (h.mnt n).um ≠ []) :
    Open (h.mkmnts n els).2 r (h.mkmnts n els).1 := by
  induction els generalizing h n with
  | nil => exact ho
  | cons el els ih =>
    have hn := hs.ordered.lt hb hr.lt
    obtain ⟨he, hb'⟩ := Edit.mkmnt el hs hr hb
    rw [mkmnts_cons hn]
    exact ih (ho.mkmnt hs hr hn hchan) he.sound he.root hb' fun e => absurd e hr.lt.ne'

theorem members_map_chan (cs : List C) : members (cs.map Mounted.chan) = cs := by
  rw [members, List.filterMap_map]
  exact List.filterMap_some

theorem ready_of_ne (hk : k ≠ n) : (h.ready dev n flags).mnt k = h.mnt k := by
  unfold Heap.ready
  split_ifs
  · exact set_of_ne hk
  · rw [initunion_eq]
    exact set_of_ne hk
  · rfl

/-- `initunion` appends the old contents. -/
theorem ready_add (dev : Dev C) (h : Heap C) (n : ℕ) (hf : flags ≠ .MREPL) : ∃ cs, ((h.ready dev n flags).mnt n).um =
    (h.mnt n).um ++ cs.map .chan ∧ ((h.mnt n).ismount = 0 → cs = h.old dev n []) := by
  rw [Heap.ready, if_neg hf]
  split_ifs with hi
  · rw [initunion_eq, set_self]
    exact ⟨_, rfl, fun _ => rfl⟩
  · exact ⟨[], (List.append_nil _).symm, fun h0 => absurd h0 hi⟩

theorem Open.ready (ho : Open h r n) : Open (h.ready dev n flags) r n := by
  have hcount := ho.count
  unfold Heap.ready
  split_ifs
  · refine ho.set (fun c hc => absurd hc List.not_mem_nil) ?_
    change (h.mnt n).ismount - ((members (h.mnt n).um).length : ℤ) + _ = 0
    omega
  · rw [initunion_eq]
    refine ho.set (fun c hc => ?_) ?_
    · change c ∈ kids ((h.mnt n).um ++ _) at hc
      rwa [kids_append, kids_map_chan, List.append_nil] at hc
    · change (h.mnt n).ismount + ((h.old dev n []).length : ℤ) + _ =
        ((members ((h.mnt n).um ++ _)).length : ℤ)
      rw [members_append, members_map_chan, List.length_append]
      omega
  · exact ho

/-- The `Mount` that is written, with some copies in its list. -/
theorem Open.at (ho : Open h r n) (hn : n ≠ r) (hum : (h.mnt n).um = pre ++ post)
    (hl : members l = []) (hne : l ≠ [] ∨ (h.mnt n).um ≠ []) :
    Good { h.mnt n with um := pre ++ l ++ post } := by
  have hcount := ho.count
  rw [if_neg hn, Int.add_zero, hum, members_append] at hcount
  refine ⟨?_, fun hnil => ?_⟩
  · change (h.mnt n).ismount = ((members (pre ++ l ++ post)).length : ℤ)
    rw [members_append, members_append, hl, List.append_nil, hcount]
  · have hnil : pre ++ l ++ post = [] := hnil
    rw [List.append_eq_nil_iff, List.append_eq_nil_iff] at hnil
    obtain ⟨⟨hpre, hl⟩, hpost⟩ := hnil
    rw [hum, hpre, hpost] at hne
    exact hne.elim (fun h => h hl) fun h => h rfl

/-- New entries have come, and are counted. -/
theorem Open.added {c : C} {mnt : Option ℕ} (ho : Open h r n) (hr : Root h r)
    (hm : Mounting h n c mnt flags pre post ins h₂)
    (hat : HeldAt Good h n pre post (h.entries c mnt)) : Open (h₂.adopt n ins) r n := by
  have hcount := ho.count
  have hentries : ∀ c' ∈ kids (h.entries c mnt), c' ≠ n → Good (h.mnt c') := by
    cases mnt with
    | none => exact fun _ hc' => absurd hc' List.not_mem_nil
    | some src => exact ho.held src
  obtain ⟨hh, -⟩ := hm.held Good good_kept ho.held hentries hat
  have hfield : ∀ k, ((h₂.adopt n ins).mnt k).um = (h₂.mnt k).um := fun k => by rw [adopt_mnt]
  have hismount : ∀ k, k ≠ n → ((h₂.adopt n ins).mnt k).ismount = (h₂.mnt k).ismount := by
    intro k hk
    rw [adopt_mnt, if_neg hk]
  refine ⟨fun hnr => ?_, fun a b hb hbn => ?_, ?_⟩
  · have := ho.slash hnr
    refine ⟨?_, ?_⟩
    · rw [hfield, hismount r hnr.symm, hm.old r hr.lt hnr.symm]
      exact this.ismount
    · rw [hfield, hm.old r hr.lt hnr.symm]
      exact this.chan
  · rw [adopt_children] at hb
    have := hh a b hb hbn
    refine ⟨?_, ?_⟩
    · rw [hfield, hismount b hbn]
      exact this.ismount
    · rw [hfield]
      exact this.um
  · rw [adopt_mnt, if_pos rfl, hm.dest]
    change (h.mnt n).ismount + ((members ins).length : ℤ) + _ =
      ((members (pre ++ ins ++ post)).length : ℤ)
    rw [hm.um, members_append, List.length_append] at hcount
    rw [members_append, members_append, List.length_append, List.length_append]
    omega

/-! ## Mounting -/

/-- The union `u` can be mounted at `els` below `q`, the `Mount` where the walk ends: there is
something in it, and `dupum` does not come to the `Mount` that it writes before that is complete. -/
structure Clear (dev : Dev C) (h : Heap C) (r q : ℕ) (els : List String) (u : ℕ) (flags : Order) :
    Prop where
  entries : u ≠ q → (h.mnt u).um ≠ []
  self : u = q → els = [] → flags ≠ .MREPL
  slash : q = r → els = [] → flags = .MREPL → members (h.mnt u).um ≠ []
  inside : ∀ l₁ c l₂, (h.mnt u).um = l₁ ++ .child c :: l₂ → Below h.children c q →
    members l₁ = [] ∧ (l₁ ≠ [] ∨ flags ≠ .MREPL ∧ (els ≠ [] → h.old dev q els ≠ []))
  front : u = q → els ≠ [] → flags ≠ .MREPL ∧ h.old dev q els ≠ []

theorem Ordered.le (ho : Ordered h) {a b : ℕ} (hb : Below h.children a b) : a ≤ b :=
  hb.induct (Q := fun b => a ≤ b) le_rfl fun b c hb hc => hb.trans (ho b c hc).1.le

/-- What `mkmnts` and `initunion` leave of the state that `Clear` is about. -/
theorem Clear.at {c : ℕ} {l₁ l₂ : List (Mounted C)} (hc : Clear dev h r q els u flags)
    (hs : Sound h) (hr : Root h r) (hcl : Closed h r) (hbq : Below h.children r q)
    (hx : (n, h₀) = h.mkmnts q els) (hh₁ : h₁ = h₀.ready dev n flags) (hs₀ : Sound h₀)
    (hs₁ : Sound h₁) (hu : u < h.next) (hsplit : (h₁.mnt u).um = l₁ ++ .child c :: l₂)
    (hb : Below h₁.children c n) : members l₁ = [] ∧ (l₁ ≠ [] ∨ (h₁.mnt n).um ≠ []) := by
  have hself : ∀ {h : Heap C} {u : ℕ}, Sound h → (h.mnt u).um = l₁ ++ .child c :: l₂ → u < c :=
    fun {h u} hs hum => ((hs u).order c (by
      rw [Heap.children, hum]
      exact mem_kids.mpr (List.mem_append_right _ List.mem_cons_self))).1
  have hready : ∀ k, k ≠ n → h₁.mnt k = h₀.mnt k := fun k hk => by rw [hh₁, ready_of_ne hk]
  have hb₀ : Below h₀.children c n := below_le hs₁.ordered (fun k hk => by
    rw [Heap.children, hready k hk.ne, Heap.children]) hb
  by_cases hels : els = []
  · rw [hels] at hx
    cases hx
    by_cases huq : u = n
    · rw [huq] at hsplit
      have h1 := hself hs₁ hsplit
      have h2 := hs₁.ordered.le hb
      omega
    · rw [hready u huq] at hsplit
      obtain ⟨hl, hne⟩ := hc.inside l₁ c l₂ hsplit hb₀
      refine ⟨hl, hne.imp_right fun hf => ?_⟩
      obtain ⟨cs, hum, -⟩ := ready_add dev h n hf.1
      rw [hh₁, hum]
      exact List.append_ne_nil_of_left_ne_nil (hcl.um hbq) _
  · have hm := mkmnts_spec (hs.ordered.lt hbq hr.lt) hels
    have hold := mkmnts_old dev els hs hr hbq
    rw [← hx] at hm hold
    have hun : u ≠ n := by
      have := hm.next.1
      omega
    have hum : flags ≠ .MREPL → h.old dev q els ≠ [] → (h₁.mnt n).um ≠ [] := by
      intro hf hne
      obtain ⟨cs, hum, hcs⟩ := ready_add dev h₀ n hf
      rw [hh₁, hum, hcs hm.ismount, hold]
      exact List.append_ne_nil_of_right_ne_nil _ (by simpa using hne)
    rw [hready u hun] at hsplit
    by_cases huq : u = q
    · obtain ⟨hf, hne⟩ := hc.front huq hels
      have hsplit' := hsplit
      rw [huq, hm.dest] at hsplit'
      cases l₁ with
      | nil => exact ⟨rfl, .inr (hum hf hne)⟩
      | cons x l₁ =>
        obtain ⟨-, hsplit'⟩ := List.cons.inj hsplit'
        have hlt : q < c ∧ c < h.next := (hs q).order c (by
          rw [Heap.children, hsplit']
          exact mem_kids.mpr (List.mem_append_right _ List.mem_cons_self))
        have := hs.ordered.le (hm.below hs hs₀.ordered hlt.2 hb₀)
        omega
    · rw [hm.old u hu huq] at hsplit
      have hlt : c < h.next := ((hs u).order c (by
        rw [Heap.children, hsplit]
        exact mem_kids.mpr (List.mem_append_right _ List.mem_cons_self))).2
      obtain ⟨hl, hne⟩ := hc.inside l₁ c l₂ hsplit (hm.below hs hs₀.ordered hlt hb₀)
      exact ⟨hl, hne.imp_right fun hf => hum hf.1 (hf.2 hels)⟩

/-- Something comes from the union, and a channel where the root is replaced. -/
theorem Clear.entries_ne (hc : Clear dev h r q els u flags) (hs : Sound h) (hr : Root h r)
    (hcl : Closed h r) (hbq : Below h.children r q) (hx : (n, h₀) = h.mkmnts q els)
    (hh₁ : h₁ = h₀.ready dev n flags) (hu : u < h.next) :
    (h₁.mnt u).um ≠ [] ∧ (n = r → flags = .MREPL → members (h₁.mnt u).um ≠ []) := by
  have hready : ∀ k, k ≠ n → h₁.mnt k = h₀.mnt k := fun k hk => by rw [hh₁, ready_of_ne hk]
  by_cases hels : els = []
  · rw [hels] at hx
    cases hx
    by_cases huq : u = n
    · have hf := hc.self huq hels
      obtain ⟨cs, hum, -⟩ := ready_add dev h n hf
      rw [huq, hh₁, hum]
      exact ⟨List.append_ne_nil_of_left_ne_nil (hcl.um hbq) _, fun _ hf' => absurd hf' hf⟩
    · rw [hready u huq]
      exact ⟨hc.entries huq, fun hn hf => hc.slash hn hels hf⟩
  · have hm := mkmnts_spec (hs.ordered.lt hbq hr.lt) hels
    rw [← hx] at hm
    have hn := hm.next.1
    have hr := hr.lt
    refine ⟨?_, fun hnr => by omega⟩
    rw [hready u (by omega)]
    by_cases huq : u = q
    · rw [huq, hm.dest]
      exact List.cons_ne_nil _ _
    · rw [hm.old u hu huq]
      exact hc.entries huq

theorem Closed.mntmount {c : C} {mnt : Option ℕ} (hcl : Closed h r) (hs : Sound h) (hr : Root h r)
    (hclear : ∀ u, mnt = some u → u < h.next ∧
      Clear dev h r (h.mntwalk dev false true r p).mp (p.drop (h.mntwalk dev false true r p).i) u
        flags)
    (hrun : h.mntmount dev r p c mnt flags = some h') : Closed h' r := by
  have he := Edit.mntmount hs hr hrun
  obtain ⟨w, n, h₀, h₁, pre, post, ins, h₂, rfl, hx, he₀, hb₀, hh₁, he₁, hb₁, hm, rfl⟩ :=
    mntmount_spec hs hr hrun
  have hbq : Below h.children r (h.mntwalk dev false true r p).mp := mntwalk_below p
  have ho₀ : Open h₀ r n := by
    have ho := (hcl.opened hbq).mkmnts (p.drop (h.mntwalk dev false true r p).i) hs hr hbq
      fun e => by
        rw [e]
        exact hcl.slash.chan
    rwa [← hx] at ho
  have ho₁ : Open h₁ r n := hh₁ ▸ ho₀.ready
  have hat : HeldAt Good h₁ n pre post (h₁.entries c mnt) := by
    intro l₁ b l₂ hsplit hb
    cases mnt with
    | none =>
      have hmem : Mounted.child b ∈ [Mounted.chan c] := by
        have hsplit : [Mounted.chan c] = l₁ ++ .child b :: l₂ := hsplit
        rw [hsplit]
        exact List.mem_append_right _ List.mem_cons_self
      cases List.mem_singleton.mp hmem
    | some u =>
      obtain ⟨hu, hclear⟩ := hclear u rfl
      have hsplit : (h₁.mnt u).um = l₁ ++ .child b :: l₂ := hsplit
      obtain ⟨hl, hne⟩ :=
        hclear.at hs hr hcl hbq hx hh₁ he₀.sound he₁.sound hu hsplit hb
      have hbu : b ∈ h₁.children u := by
        rw [Heap.children, hsplit]
        exact mem_kids.mpr (List.mem_append_right _ List.mem_cons_self)
      refine ho₁.at ?_ hm.um hl hne
      rintro rfl
      exact he₁.root.not_below he₁.sound hbu hb
  have hum : ((h₂.adopt n ins).mnt n).um = pre ++ ins ++ post := by
    rw [adopt_mnt, hm.dest]
  refine (ho₁.added he₁.root hm hat).closed he.sound he.root (fun _ => ?_) fun hnr => ?_
  · have hins : ins ≠ [] := by
      refine ne_nil_of_length hm.length ?_
      cases mnt with
      | none => exact List.cons_ne_nil _ _
      | some u =>
        obtain ⟨hu, hclear⟩ := hclear u rfl
        exact (hclear.entries_ne hs hr hcl hbq hx hh₁ hu).1
    rw [hum, List.append_assoc]
    exact List.append_ne_nil_of_right_ne_nil _ (List.append_ne_nil_of_left_ne_nil hins _)
  · rw [hum, members_append, members_append, List.append_assoc]
    by_cases hf : flags = .MREPL
    · refine List.append_ne_nil_of_right_ne_nil _ (List.append_ne_nil_of_left_ne_nil ?_ _)
      rw [hm.members]
      cases mnt with
      | none => exact List.cons_ne_nil _ _
      | some u =>
        obtain ⟨hu, hclear⟩ := hclear u rfl
        exact (hclear.entries_ne hs hr hcl hbq hx hh₁ hu).2 hnr hf
    · obtain ⟨cs, hcs, -⟩ := ready_add dev h₀ n hf
      rw [← hh₁, hm.um] at hcs
      have hold : members (h₀.mnt n).um ≠ [] := by
        obtain ⟨hn, rfl⟩ := mkmnts_old_mount (hs.ordered.lt hbq hr.lt) hx (hnr ▸ hr.lt)
        rw [hnr]
        exact hcl.slash.chan
      have hall : members pre ++ members post ≠ [] := by
        rw [← members_append, hcs, members_append]
        exact List.append_ne_nil_of_left_ne_nil hold _
      intro hnil
      rw [List.append_eq_nil_iff, List.append_eq_nil_iff] at hnil
      exact hall (List.append_eq_nil_iff.mpr ⟨hnil.1, hnil.2.2⟩)

/-! ## Unmounting -/

theorem Open.remove {l₁ l₂ : List (Mounted C)} (ho : Open h r n) (hs : Sound h) (hr : Root h r)
    (hn : n ≠ r) (hb : Below h.children r q) (hq : (h.mnt q).um = l₁ ++ .child n :: l₂) :
    Open (h.remove q n (l₁ ++ l₂)) r q := by
  obtain ⟨-, hqn⟩ := mem_removed hs hq
  refine ⟨fun hqr => ?_, fun a c hac hcq => ?_, ?_⟩
  · rw [remove_of_ne hn.symm hqr.symm]
    exact ho.slash hn
  · obtain ⟨hsub, hcn⟩ := remove_children hs hq a
    have hcn : c ≠ n := fun he => hcn (he ▸ hac)
    rw [remove_of_ne hcn hcq]
    exact ho.held a c (hsub.subset hac) hcn
  · rw [remove_parent hqn]
    have hmem : members (l₁ ++ l₂) = members (h.mnt q).um := by
      rw [hq, members_append, members_append, members_child]
    change (h.mnt q).ismount + _ = ((members (l₁ ++ l₂)).length : ℤ)
    rw [hmem]
    split_ifs with hqr
    · rw [hqr]
      exact (ho.slash hn).ismount
    · obtain rfl | ⟨b, -, hqb⟩ := hb.cases_root
      · exact absurd rfl hqr
      · rw [Int.add_zero]
        exact (ho.held b q hqb hqn).ismount

theorem Closed.collect {e : Option Error} (fuel : ℕ) : ∀ {h : Heap C} {n : ℕ}, Open h r n →
    Sound h → Root h r → Below h.children r n → n ≠ r → h.collect fuel n = some (h', e) →
    Closed h' r := by
  induction fuel with
  | zero => exact fun _ _ _ _ _ hrun => nomatch hrun
  | succ fuel ih =>
    intro h n ho hs hr hb hn hrun
    rw [Heap.collect] at hrun
    split at hrun
    · rename_i hp
      obtain rfl | ⟨b, -, hnb⟩ := hb.cases_root
      · exact absurd rfl hn
      · rw [hs.parent b n hnb] at hp
        cases hp
    · rename_i q hq
      split at hrun
      · cases hrun
      · rename_i um hum
        obtain ⟨hbq, -⟩ := parent_below hs hr hb hq
        obtain ⟨l₁, m, l₂, hl, rfl, hm, -⟩ := unlink_spec hum
        rw [child?_eq hm] at hl
        obtain ⟨-, hqn⟩ := mem_removed hs hl
        have he := Edit.remove hs hr hbq hl
        have ho' := ho.remove hs hr hn hbq hl
        change (if l₁ ++ l₂ ≠ [] ∨ ((h.remove q n (l₁ ++ l₂)).mnt q).parent = none then
          some (h.remove q n (l₁ ++ l₂), none) else (h.remove q n (l₁ ++ l₂)).collect fuel q) =
            some (h', e) at hrun
        have hqum : ((h.remove q n (l₁ ++ l₂)).mnt q).um = l₁ ++ l₂ := by rw [remove_parent hqn]
        have hroot : q = r → members (l₁ ++ l₂) ≠ [] := by
          intro hqr
          have := (ho.slash hn).chan
          rw [← hqr, hl, members_append, members_child] at this
          rwa [members_append]
        by_cases hqr : q = r
        · have hp := he.root.parent
          rw [← hqr] at hp
          rw [if_pos (.inr hp)] at hrun
          cases hrun
          refine ho'.closed he.sound he.root (fun h => absurd hqr h) fun h => ?_
          rw [hqum]
          exact hroot h
        · split_ifs at hrun with hcond
          · cases hrun
            refine ho'.closed he.sound he.root (fun _ => ?_) fun h => absurd h hqr
            rw [hqum]
            refine hcond.resolve_right fun hp => ?_
            obtain rfl | ⟨b, -, hqb⟩ := (below_remove n (l₁ ++ l₂) hs hbq).cases_root
            · exact hqr rfl
            · rw [he.sound.parent b q hqb] at hp
              cases hp
          · exact ih ho' he.sound he.root (below_remove n (l₁ ++ l₂) hs hbq) hqr hrun

theorem Closed.mntunmount {c : Option C} {e : Option Error} (hcl : Closed h r) (hs : Sound h)
    (hr : Root h r) (hrun : h.mntunmount dev r p c = some (h', e)) : Closed h' r := by
  have hb : Below h.children r (h.mntwalk dev false true r p).mp := mntwalk_below p
  obtain ⟨n, hn⟩ : ∃ n, n = (h.mntwalk dev false true r p).mp := ⟨_, rfl⟩
  unfold Heap.mntunmount at hrun
  simp only [← hn] at hrun hb
  split_ifs at hrun with hi hm
  · cases hrun
    exact hcl
  · cases hrun
    exact hcl
  · cases c with
    | none =>
      by_cases hnr : n = r
      · obtain ⟨fuel, hf⟩ : ∃ f, h.next = f + 1 := ⟨h.next - 1, by have := hr.lt; omega⟩
        simp only [hf, Heap.collect, hnr, hr.parent] at hrun
        cases hrun
        exact hcl
      · exact .collect _ (hcl.opened hb) hs hr hb hnr hrun
    | some c =>
      simp only at hrun
      split at hrun
      · cases hrun
        exact hcl
      · rename_i um hum
        obtain ⟨l₁, m, l₂, hl, rfl, hm', -⟩ := unlink_spec hum
        obtain ⟨he, hb'⟩ := Edit.leave hs hr hb hl
        obtain ⟨c', rfl⟩ : ∃ c', m = .chan c' := by
          cases m with
          | chan c' => exact ⟨c', rfl⟩
          | child k => cases hm'
        have hcount := (hcl.opened hb).count
        have hmem : (members (h.mnt n).um).length = (members (l₁ ++ l₂)).length + 1 := by
          rw [hl, members_append, members_append, members_chan, List.length_append,
            List.length_append, List.length_cons]
          omega
        have ho : Open ((h.setum n (l₁ ++ l₂)).addismount n (-1)) r n := by
          rw [setum_addismount]
          refine (hcl.opened hb).set (fun c hc => ?_) ?_
          · change c ∈ kids (l₁ ++ l₂) at hc
            rw [Heap.children, hl]
            change c ∈ kids (l₁ ++ _)
            rwa [kids_append, kids_chan, ← kids_append]
          · change (h.mnt n).ismount + -1 + _ = ((members (l₁ ++ l₂)).length : ℤ)
            omega
        have hum' : (((h.setum n (l₁ ++ l₂)).addismount n (-1)).mnt n).um = l₁ ++ l₂ := by
          rw [setum_addismount, set_self]
        -- a root has two channels or more where its count is not zero
        have hroot : n = r → members (l₁ ++ l₂) ≠ [] := by
          intro hnr hnil
          rw [if_pos hnr, hmem, hnil] at hcount
          exact hm (by simpa using hcount)
        split_ifs at hrun with hne
        · cases hrun
          refine ho.closed he.sound he.root (fun _ => ?_) fun hnr => ?_
          · rw [hum']
            exact hne
          · rw [hum']
            exact hroot hnr
        · refine .collect _ ho he.sound he.root hb' (fun hnr => hroot hnr ?_) hrun
          rw [not_not.mp hne]
          rfl

/-! ## Runs -/

theorem Copied.children_good (hc : Copied h r h') (hs : Sound h) (hs' : Sound h')
    (hheld : ∀ a, ∀ c ∈ h.children a, Good (h.mnt c)) (a c : ℕ) (hac : c ∈ h'.children a) :
    Good (h'.mnt c) := by
  have hlt := (hs' a).order c hac
  by_cases ha : a < h.next
  · rw [Heap.children, hc.old a ha] at hac
    rw [hc.old c ((hs a).order c hac).2]
    exact hheld a c hac
  · obtain ⟨b, hb, s, hbs, ht⟩ := hc.source c (by omega) hlt.2
    refine good_kept _ _ ht ?_
    obtain rfl | ⟨b', -, hb'⟩ := hbs.cases_root
    · exact hheld r s hb
    · exact hheld b' s hb'

/-- The unions that are mounted are clear. -/
def Act.Clear (dev : Dev C) (s : Names C) : Act C → Prop
  | .call r (.mntmount p _ (some u) flags) =>
    let w := s.heap.mntwalk dev false true r p
    Mnt.Clear dev s.heap r w.mp (p.drop w.i) u flags
  | _ => True

theorem Closed.call {c : Call C} (hcl : Closed h r) (hs : Sound h) (hr : Root h r)
    (hu : c.mnt.all (· < h.next)) (hclear : (Act.call r c).Clear dev ⟨h, [r]⟩)
    (hrun : h.call dev r c = some h') : Closed h' r := by
  cases c with
  | mntmount p c mnt flags =>
    refine hcl.mntmount hs hr (fun u hmnt => ?_) hrun
    subst hmnt
    exact ⟨of_decide_eq_true hu, hclear⟩
  | mntunmount p c =>
    obtain ⟨⟨h'', e⟩, hu, rfl⟩ := Option.map_eq_some_iff.mp hrun
    exact hcl.mntunmount hs hr hu

structure Names.Counted (s : Names C) : Prop extends s.Sound where
  slash : ∀ r ∈ s.roots, Slash (s.heap.mnt r)
  held : ∀ a, ∀ c ∈ s.heap.children a, Good (s.heap.mnt c)

theorem Names.Counted.closed {s : Names C} (hs : s.Counted) (hr : r ∈ s.roots) :
    Closed s.heap r := ⟨hs.slash r hr, hs.held⟩

theorem names_counted (dev : Dev C) :
    ((names dev).restrict (Act.Clear dev)).Inductive Names.Counted where
  init s hs := by
    refine ⟨(names_sound dev).init s hs, fun r hr => ?_, fun a c hc => ?_⟩
    · cases (show s = .start from hs)
      cases hr
    · cases (show s = .start from hs)
      cases hc
  step s a s' hI hrun := by
    obtain ⟨hrun, hclear⟩ := hrun
    have hsound := (names_sound dev).step s a s' hI.toSound hrun
    obtain ⟨⟨hs, hr⟩, hslash, hheld⟩ := hI
    refine ⟨hsound, ?_, ?_⟩
    · cases a with
      | setslash slash =>
        cases hrun
        refine List.forall_mem_cons.mpr ⟨?_, fun r hmem => ?_⟩
        · change Slash ((s.heap.setslash slash).mnt s.heap.next)
          rw [setslash_mnt]
          exact ⟨rfl, List.cons_ne_nil _ _⟩
        · change Slash ((s.heap.setslash slash).mnt r)
          rw [setslash_of_ne (hr r hmem).lt.ne]
          exact hslash r hmem
      | dupmnt r =>
        obtain ⟨hmem, he⟩ := Option.ite_none_right_eq_some.mp hrun
        obtain ⟨h', hd, hc⟩ := dupmnt_copied hs (hr r hmem)
        rw [hd] at he
        cases he
        refine List.forall_mem_cons.mpr ⟨slash_kept _ _ hc.top (hslash r hmem), fun r' h' => ?_⟩
        rw [hc.old r' (hr r' h').lt]
        exact hslash r' h'
      | call r c =>
        obtain ⟨⟨hmem, hu⟩, he⟩ := Option.ite_none_right_eq_some.mp hrun
        obtain ⟨h', hcall, rfl⟩ := Option.map_eq_some_iff.mp he
        intro r' hr'
        by_cases hne : r' = r
        · rw [hne]
          exact (Closed.call ⟨hslash r hmem, hheld⟩ hs (hr r hmem) hu hclear hcall).slash
        · have := (Edit.call hs (hr r hmem) hcall).other hs (hr r hmem) (hr r' hr') hne r' .here
          rw [this]
          exact hslash r' hr'
    · cases a with
      | setslash slash =>
        cases hrun
        intro a c hac
        change Good ((s.heap.setslash slash).mnt c)
        have hac : c ∈ (s.heap.setslash slash).children a := hac
        unfold Heap.children at hac
        by_cases ha : a = s.heap.next
        · rw [ha, setslash_mnt] at hac
          cases hac
        · rw [setslash_of_ne ha] at hac
          rw [setslash_of_ne ((hs a).order c hac).2.ne]
          exact hheld a c hac
      | dupmnt r =>
        obtain ⟨hmem, he⟩ := Option.ite_none_right_eq_some.mp hrun
        obtain ⟨h', hd, hc⟩ := dupmnt_copied hs (hr r hmem)
        rw [hd] at he
        cases he
        exact hc.children_good hs (hc.sound hs) hheld
      | call r c =>
        obtain ⟨⟨hmem, hu⟩, he⟩ := Option.ite_none_right_eq_some.mp hrun
        obtain ⟨h', hcall, rfl⟩ := Option.map_eq_some_iff.mp he
        exact (Closed.call ⟨hslash r hmem, hheld⟩ hs (hr r hmem) hu hclear hcall).held

/-- The counts of each tree, in every run. -/
theorem mnt_counts {s : Names C} (hs : ((names dev).restrict (Act.Clear dev)).Reach s)
    (hr : r ∈ s.roots) : (s.heap.mnt r).um ≠ [] ∧ ∀ n, Below s.heap.children r n →
      (∀ c ∈ s.heap.children n, (s.heap.mnt c).parent = some n) ∧
      (n ≠ r → (s.heap.mnt n).ismount = (s.heap.chans n).length ∧ (s.heap.mnt n).um ≠ []) := by
  have hI := (names_counted dev).reach hs
  refine ⟨(hI.slash r hr).um, fun n hb => ⟨hI.sound.parent n, fun hn => ?_⟩⟩
  have hgood := (hI.closed hr).good hb hn
  exact ⟨hgood.ismount, hgood.um⟩

/-- `bind -a 1 /` -/
def binds : List (Act ℕ) := [.setslash 0, .call 0 (.mntmount [] 1 none .MAFTER)]

theorem binds_run : ∃ s, binds.foldlM (Names.step plain) .start = some s ∧
    ((names plain).restrict (Act.Clear plain)).Reach s ∧
    (s.heap.mnt 0).um = [.chan 0, .chan 1] ∧ s.heap.old plain 0 ["a"] ≠ [] ∧
    (s.heap.mntwalk plain false true 0 ["a"]).mp = 0 ∧
    (s.heap.mntwalk plain false true 0 ["a"]).i = 0 := by
  have hrun : (binds.foldlM (Names.step plain) .start).map (fun s =>
      ((s.heap.mnt 0).um, s.heap.old plain 0 ["a"],
        (s.heap.mntwalk plain false true 0 ["a"]).mp,
        (s.heap.mntwalk plain false true 0 ["a"]).i)) =
      some ([.chan 0, .chan 1], [1, 2], 0, 0) := by decide
  obtain ⟨s, hs, he⟩ := Option.map_eq_some_iff.mp hrun
  simp only [Prod.mk.injEq] at he
  obtain ⟨hum, hold, hmp, hi⟩ := he
  refine ⟨s, hs, ?_, hum, by rw [hold]; exact List.cons_ne_nil _ _, hmp, hi⟩
  rw [binds, List.foldlM_cons] at hs
  obtain ⟨s₁, hs₁, hs⟩ := Option.bind_eq_some_iff.mp hs
  rw [List.foldlM_cons] at hs
  obtain ⟨s₂, hs₂, he⟩ := Option.bind_eq_some_iff.mp hs
  cases he
  have h₁ : ((names plain).restrict (Act.Clear plain)).Reach s₁ :=
    Lts.Reach.step (e := .setslash 0) ⟨[], .init rfl⟩ ⟨hs₁, trivial⟩
  exact h₁.step (e := .call 0 (.mntmount [] 1 none .MAFTER)) ⟨hs₂, trivial⟩

/-- `bind -a / /a` -/
theorem mnt_counts_union : ∃ s : Names ℕ,
    [.setslash 0, .call 0 (.mntmount [] 1 none .MAFTER),
      .call 0 (.mntmount ["a"] 0 (some 0) .MAFTER)].foldlM (Names.step plain) .start = some s ∧
    (s.heap.mnt 0).um ≠ [] ∧ ∀ n, Below s.heap.children 0 n →
      (∀ c ∈ s.heap.children n, (s.heap.mnt c).parent = some n) ∧
      (n ≠ 0 → (s.heap.mnt n).ismount = (s.heap.chans n).length ∧ (s.heap.mnt n).um ≠ []) := by
  obtain ⟨s, hs, hreach, hum, hold, hmp, hi⟩ := binds_run
  have hrun : ((binds ++ [Act.call 0 (.mntmount ["a"] 0 (some 0) .MAFTER)]).foldlM (Names.step plain)
      .start).map Names.roots = some [0] := by decide
  obtain ⟨s', hs', hroots⟩ := Option.map_eq_some_iff.mp hrun
  have hreach' : ((names plain).restrict (Act.Clear plain)).Reach s' := by
    refine hreach.step (e := .call 0 (.mntmount ["a"] 0 (some 0) .MAFTER)) ⟨?_, ?_⟩
    · rw [List.foldlM_append, hs] at hs'
      obtain ⟨s₁, h₁, he⟩ := Option.bind_eq_some_iff.mp hs'
      cases h₁
      rw [List.foldlM_cons] at he
      obtain ⟨s₂, h₂, he⟩ := Option.bind_eq_some_iff.mp he
      cases he
      exact h₂
    · change Mnt.Clear plain s.heap 0 _ _ 0 .MAFTER
      rw [hmp, hi]
      refine ⟨fun h => absurd rfl h, nofun, nofun, fun l₁ c l₂ hsplit _ => ?_, fun _ _ => ⟨nofun, hold⟩⟩
      rw [hum] at hsplit
      have hmem : Mounted.child c ∈ [Mounted.chan 0, Mounted.chan 1] := by
        rw [hsplit]
        exact List.mem_append_right _ List.mem_cons_self
      simp at hmem
  refine ⟨s', hs', mnt_counts hreach' ?_⟩
  rw [hroots]
  exact List.mem_singleton_self 0

/-- `bind / /a` leaves a copy of the new `Mount` without entries. -/
theorem mnt_counts_half : ∃ s : Names ℕ,
    [.setslash 0, .call 0 (.mntmount [] 1 none .MAFTER),
      .call 0 (.mntmount ["a"] 0 (some 0) .MREPL)].foldlM (Names.step plain) .start = some s ∧
    (names plain).Reach s ∧ 0 ∈ s.roots ∧
    ¬ ∀ n, Below s.heap.children 0 n → n ≠ 0 → (s.heap.mnt n).um ≠ [] := by
  have hrun : ((binds ++ [Act.call 0 (.mntmount ["a"] 0 (some 0) .MREPL)]).foldlM (Names.step plain)
      .start).map (fun s : Names ℕ => (s.roots, s.heap.children 0, s.heap.children 1, (s.heap.mnt 2).um)) =
      some ([0], [1], [2], []) := by decide
  obtain ⟨s, hs, he⟩ := Option.map_eq_some_iff.mp hrun
  simp only [Prod.mk.injEq] at he
  obtain ⟨hroots, h0, h1, hum⟩ := he
  refine ⟨s, hs, Lts.Reach.exec (fun _ _ _ h => h) ⟨[], .init rfl⟩ hs, ?_, fun hall => ?_⟩
  · rw [hroots]
    exact List.mem_singleton_self 0
  · refine hall 2 ((Below.child (b := 1) ?_).step ?_) (by decide) hum
    · rw [h0]
      exact List.mem_singleton_self 1
    · rw [h1]
      exact List.mem_singleton_self 2

end NixMark.Mnt
