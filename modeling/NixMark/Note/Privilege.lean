import NixMark.Note.Noted

/-!
# What a process resumes with after a note

* `Unprivileged`: the selectors are those of a user, and no system flag differs.
* `Left`: the others leave the words as they were checked; `noted_privilege`: exactly then the
  process resumes unprivileged.
* `noted_raises`: a selector that was checked is replaced before it is copied.
-/

namespace NixMark.Note

variable {S : Space} {w : Nat → Writes} {up up' : Up} {m m' : NFrame} {cur cur' ureg : Ureg}
  {arg0 : u64int} {posted : List Flag}

/-- The registers that a process may resume with, when it had `cur` at entry. -/
structure Unprivileged (cur cur' : Ureg) : Prop where
  cs : cur'.cs = BitVec.ofNat 64 UCS
  ss : cur'.ss = BitVec.ofNat 64 UDS
  ds : cur'.ds = BitVec.ofNat 16 UDS
  es : cur'.es = BitVec.ofNat 16 UDS
  fs : cur'.fs = BitVec.ofNat 16 UDS
  gs : cur'.gs = BitVec.ofNat 16 UDS
  flags : cur'.flags &&& ~~~USERFLAGS = cur.flags &&& ~~~USERFLAGS

/-- What is written last, before the accesses from `lo` on, `n` of them. -/
def lastwrite {α : Type} (g : Nat → Option α) (lo n : Nat) : Option α :=
  (List.range' lo n).reverse.findSome? g

/-- What is written last, if anything, is the value. -/
def Keeps {α : Type} (g : Nat → Option α) (lo n : Nat) (v : α) : Prop :=
  ∀ x, lastwrite g lo n = some x → x = v

/-- The flags that others write between the two changes of the flags, or behind them. -/
def KeepsFlags (w : Nat → Writes) (cur : Ureg) : Prop :=
  match lastwrite (fun k => (w k).flags) 10 9 with
  | some x => x &&& ~~~USERFLAGS = cur.flags &&& ~~~USERFLAGS
  | none => ∀ x, (w 8).flags = some x → x &&& ~~~USERFLAGS &&& ~~~cur.flags = 0

/-- Between the check and the copy, the others leave the words as they are to be. -/
structure Left (w : Nat → Writes) (cur : Ureg) : Prop where
  cs : Keeps (fun k => (w k).cs) 1 17 (BitVec.ofNat 64 UCS)
  ss : Keeps (fun k => (w k).ss) 2 19 (BitVec.ofNat 64 UDS)
  ds : Keeps (fun k => (w k).ds) 3 10 (BitVec.ofNat 16 UDS)
  es : Keeps (fun k => (w k).es) 4 10 (BitVec.ofNat 16 UDS)
  fs : Keeps (fun k => (w k).fs) 5 10 (BitVec.ofNat 16 UDS)
  gs : Keeps (fun k => (w k).gs) 6 10 (BitVec.ofNat 16 UDS)
  flags : KeepsFlags w cur

theorem lastwrite_succ {α : Type} (g : Nat → Option α) (lo n : Nat) (v : α) :
    (lastwrite g lo (n + 1)).getD v = (g (lo + n)).getD ((lastwrite g lo n).getD v) := by
  unfold lastwrite
  rw [List.range'_concat, Nat.one_mul, List.reverse_append, List.reverse_singleton,
    List.singleton_append, List.findSome?_cons]
  cases g (lo + n) <;> rfl

theorem lastwrite_zero {α : Type} (g : Nat → Option α) (lo : Nat) (v : α) :
    (lastwrite g lo 0).getD v = v := rfl

theorem keeps_iff {α : Type} {g : Nat → Option α} {lo n : Nat} {v : α} :
    (lastwrite g lo n).getD v = v ↔ Keeps g lo n v := by
  unfold Keeps
  cases lastwrite g lo n with
  | none => exact ⟨fun _ _ h => (by cases h), fun _ => rfl⟩
  | some x => exact ⟨fun h y hy => Option.some.inj hy ▸ h, fun h => h x rfl⟩

/-! ## Flags -/

theorem masked_flags (f : u64int) (d : u64int) :
    ((f &&& USERFLAGS) ||| (d &&& ~~~USERFLAGS)) &&& ~~~USERFLAGS = d &&& ~~~USERFLAGS := by
  ext i hi
  simp only [BitVec.getElem_and, BitVec.getElem_or, BitVec.getElem_not]
  cases (USERFLAGS)[i] <;> simp

theorem or_flags (f : u64int) (d : u64int) :
    (f ||| (d &&& ~~~USERFLAGS)) &&& ~~~USERFLAGS = d &&& ~~~USERFLAGS ↔
      f &&& ~~~USERFLAGS &&& ~~~d = 0 := by
  constructor
  all_goals
    intro h
    ext i hi
    have hb := congrArg (fun x : BitVec 64 => x[i]) h
    simp only [BitVec.getElem_and, BitVec.getElem_or, BitVec.getElem_not] at hb ⊢
    revert hb
    cases f[i] <;> cases d[i] <;> cases (USERFLAGS)[i] <;> simp

/-! ## The functions -/

/-- `notify` does not change selectors and flags. -/
theorem notify_unprivileged {r : Up × Ureg × Option NFrame} (h : notify S up ureg = some r) :
    Unprivileged cur r.2.1 ↔ Unprivileged cur ureg := by
  unfold notify at h
  have hframe : ∀ bp sp ip : u64int, Unprivileged cur { ureg with bp := bp, sp := sp, ip := ip } ↔
      Unprivileged cur ureg := fun bp sp ip =>
    ⟨fun h => ⟨h.cs, h.ss, h.ds, h.es, h.fs, h.gs, h.flags⟩,
      fun h => ⟨h.cs, h.ss, h.ds, h.es, h.fs, h.gs, h.flags⟩⟩
  split at h
  · cases h
    rfl
  · split at h
    · cases h
    · split at h
      · cases h
        rfl
      · split at h
        · cases h
        · split at h
          · cases h
          · dsimp only at h
            split at h
            · cases h
            · cases h
              exact hframe _ _ _

/-- The frame after the selectors are checked. -/
def checked (w : Nat → Writes) (m : NFrame) : NFrame :=
  (((((m.store (w 0)).store (w 1)).store (w 2)).store (w 3)).store (w 4)).store (w 5)

/-- The frame after the flags are changed. -/
def masked (w : Nat → Writes) (m : NFrame) (cur : Ureg) : NFrame :=
  let m₆ := (checked w m).store (w 6)
  let m₇ := (m₆.store (w 7)).setflags (m₆.ureg.flags &&& USERFLAGS)
  let m₈ := m₇.store (w 8)
  (m₈.store (w 9)).setflags (m₈.ureg.flags ||| (cur.flags &&& ~~~USERFLAGS))

/-- The selectors that were checked. -/
structure Valid (w : Nat → Writes) (m : NFrame) : Prop where
  cs : (m.store (w 0)).ureg.cs = BitVec.ofNat 64 UCS
  ss : ((m.store (w 0)).store (w 1)).ureg.ss = BitVec.ofNat 64 UDS
  ds : (((m.store (w 0)).store (w 1)).store (w 2)).ureg.ds = BitVec.ofNat 16 UDS
  es : ((((m.store (w 0)).store (w 1)).store (w 2)).store (w 3)).ureg.es = BitVec.ofNat 16 UDS
  fs : (((((m.store (w 0)).store (w 1)).store (w 2)).store (w 3)).store (w 4)).ureg.fs =
    BitVec.ofNat 16 UDS
  gs : (checked w m).ureg.gs = BitVec.ofNat 16 UDS

/-- When `noted` returns, what was checked was valid, and the registers are those copied. -/
theorem noted_cont (h : noted S w up m cur arg0 = .cont up' cur') : Valid w m ∧
    ∀ c, Unprivileged c cur' ↔ Unprivileged c (copy w (masked w m cur) 10).1 := by
  unfold noted at h
  split at h
  · cases h
  · dsimp only at h
    split at h
    · cases h
    · split at h
      · cases h
      · rename_i hok
        obtain ⟨hcs, hss, hds, hes, hfs, hgs⟩ := by
          simpa only [not_or, not_not] using hok
        refine ⟨⟨hcs, hss, hds, hes, hfs, hgs⟩, fun c => ?_⟩
        have hframe : ∀ (r : Ureg) (bp sp : u64int),
            Unprivileged c { r with bp := bp, sp := sp } ↔ Unprivileged c r := fun r bp sp =>
          ⟨fun h => ⟨h.cs, h.ss, h.ds, h.es, h.fs, h.gs, h.flags⟩,
            fun h => ⟨h.cs, h.ss, h.ds, h.es, h.fs, h.gs, h.flags⟩⟩
        split at h
        · split at h
          · cases h
          · cases h
            rfl
        · split at h
          · split at h
            · cases h
            · cases h
              exact hframe _ _ _
          · cases h

/-- The words that are copied are what was written last. -/
theorem copy_masked (w : Nat → Writes) (m : NFrame) (cur : Ureg) :
    (copy w (masked w m cur) 10).1.cs =
      (lastwrite (fun k => (w k).cs) 1 17).getD (m.store (w 0)).ureg.cs ∧
    (copy w (masked w m cur) 10).1.ss =
      (lastwrite (fun k => (w k).ss) 2 19).getD ((m.store (w 0)).store (w 1)).ureg.ss ∧
    (copy w (masked w m cur) 10).1.ds = (lastwrite (fun k => (w k).ds) 3 10).getD
      (((m.store (w 0)).store (w 1)).store (w 2)).ureg.ds ∧
    (copy w (masked w m cur) 10).1.es = (lastwrite (fun k => (w k).es) 4 10).getD
      ((((m.store (w 0)).store (w 1)).store (w 2)).store (w 3)).ureg.es ∧
    (copy w (masked w m cur) 10).1.fs = (lastwrite (fun k => (w k).fs) 5 10).getD
      (((((m.store (w 0)).store (w 1)).store (w 2)).store (w 3)).store (w 4)).ureg.fs ∧
    (copy w (masked w m cur) 10).1.gs = (lastwrite (fun k => (w k).gs) 6 10).getD
      (checked w m).ureg.gs ∧
    (copy w (masked w m cur) 10).1.flags = (lastwrite (fun k => (w k).flags) 10 9).getD
      ((w 8).flags.getD (((checked w m).store (w 6)).ureg.flags &&& USERFLAGS) |||
        (cur.flags &&& ~~~USERFLAGS)) := by
  simp only [lastwrite_succ, lastwrite_zero]
  exact ⟨rfl, rfl, rfl, rfl, rfl, rfl, rfl⟩

theorem keepsFlags_iff (f : u64int) : (lastwrite (fun k => (w k).flags) 10 9).getD
      ((w 8).flags.getD (f &&& USERFLAGS) ||| (cur.flags &&& ~~~USERFLAGS)) &&& ~~~USERFLAGS =
        cur.flags &&& ~~~USERFLAGS ↔ KeepsFlags w cur := by
  unfold KeepsFlags
  split
  · rename_i x hx
    rw [hx, Option.getD_some]
  · rename_i hx
    rw [hx, Option.getD_none]
    cases h8 : (w 8).flags with
    | none => exact ⟨fun _ x hx => (by cases hx), fun _ => masked_flags f cur.flags⟩
    | some x =>
      rw [Option.getD_some, or_flags]
      exact ⟨fun h y hy => Option.some.inj hy ▸ h, fun h => h x rfl⟩

/-- Exactly when the others leave what was checked, the process resumes without more privilege. -/
theorem noted_privilege (h : resume S w up m cur arg0 posted = some cur') :
    Unprivileged cur cur' ↔ Left w cur := by
  unfold resume at h
  split at h
  · cases h
  · rename_i up₁ cur₁ hn
    obtain ⟨r, hr, rfl⟩ := Option.map_eq_some_iff.mp h
    obtain ⟨hv, hc⟩ := noted_cont hn
    rw [notify_unprivileged hr, hc]
    obtain ⟨hcs, hss, hds, hes, hfs, hgs, hflags⟩ := copy_masked w m cur
    rw [hv.cs] at hcs
    rw [hv.ss] at hss
    rw [hv.ds] at hds
    rw [hv.es] at hes
    rw [hv.fs] at hfs
    rw [hv.gs] at hgs
    constructor
    · intro hu
      refine ⟨keeps_iff.mp (hcs ▸ hu.cs), keeps_iff.mp (hss ▸ hu.ss), keeps_iff.mp (hds ▸ hu.ds),
        keeps_iff.mp (hes ▸ hu.es), keeps_iff.mp (hfs ▸ hu.fs), keeps_iff.mp (hgs ▸ hu.gs), ?_⟩
      exact (keepsFlags_iff _).mp (hflags ▸ hu.flags)
    · intro hl
      refine ⟨hcs.trans (keeps_iff.mpr hl.cs), hss.trans (keeps_iff.mpr hl.ss),
        hds.trans (keeps_iff.mpr hl.ds), hes.trans (keeps_iff.mpr hl.es),
        hfs.trans (keeps_iff.mpr hl.fs), hgs.trans (keeps_iff.mpr hl.gs), ?_⟩
      rw [hflags]
      exact (keepsFlags_iff _).mpr hl.flags

/-! ## One frame -/

private def quiet : Writes :=
  ⟨fun _ => none, none, none, none, none, none, none, none, none, none, none, none⟩

private def user : Ureg where
  rest _ := 0
  bp := 0
  ds := BitVec.ofNat 16 UDS
  es := BitVec.ofNat 16 UDS
  fs := BitVec.ofNat 16 UDS
  gs := BitVec.ofNat 16 UDS
  ip := 0x200000
  cs := BitVec.ofNat 64 UCS
  flags := 0x202
  sp := 0x7ffff0
  ss := BitVec.ofNat 64 UDS

private def space : Space := ⟨fun _ _ _ => true, 400, 152⟩

private def handled : Up := ⟨true, 0x7ff000, 0x200100, [], .NUser⟩

theorem noted_privilege_quiet : ∃ cur',
    resume space (fun _ => quiet) handled ⟨0, user⟩ user 0 [] = some cur' ∧
      (Unprivileged user cur' ↔ Left (fun _ => quiet) user) :=
  ⟨_, rfl, noted_privilege (rfl : resume space (fun _ => quiet) handled ⟨0, user⟩ user 0 [] =
    some _)⟩

/-- Before the access 6 another process stores the kernel's code selector, and before the access 10
the flags with the I/O privilege level of a user. -/
private def raising (k : Nat) : Writes :=
  if k = 6 then { quiet with cs := some (1 <<< 3) }
  else if k = 10 then { quiet with flags := some 0x3202 }
  else quiet

/-- The process resumes with these. -/
theorem noted_raises : ∃ cur', resume space raising handled ⟨0, user⟩ user 0 [] = some cur' ∧
    cur'.cs = 1 <<< 3 ∧ cur'.flags = 0x3202 ∧ ¬ Unprivileged user cur' :=
  ⟨_, rfl, rfl, rfl, fun h => absurd h.cs (by decide)⟩

end NixMark.Note
