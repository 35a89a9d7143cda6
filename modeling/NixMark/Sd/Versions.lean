import NixMark.Sd.Table

/-!
# The versions of partitions, and every run of the table

* `Raises`, `Turns`: what a step does to the version of a slot. `Opened.Holds`: an open channel.
* `table_whole`: in every run of proper steps. `table_hole`: a name that is in the table twice.
-/

namespace NixMark.Sd

open Lib

variable {N U : Type} [DecidableEq N] [DecidableEq U]

/-! ## Versions -/

/-- The version of a slot is raised by `k`, and one that is valid is the same if it is not. -/
def Raises (unit unit' : SDunit N U) (i : Nat) (p : SDpart N U) (k : Nat) : Prop :=
  ∃ q, unit'.part[i]? = some q ∧ unit'.vers + q.vers = unit.vers + p.vers + UInt32.ofNat k ∧
    (k = 0 → p.valid = true → unit'.vers = unit.vers ∧ q = p)

/-- A step raises versions by little. -/
def Turns (unit unit' : SDunit N U) : Prop :=
  ∀ (i : Nat) (p : SDpart N U), unit.part[i]? = some p → ∃ k ≤ 4, Raises unit unit' i p k

section

variable {unit unit' : SDunit N U} {i k : Nat} {p q : SDpart N U}

section
omit [DecidableEq N] [DecidableEq U]

theorem Raises.same (hi : unit'.part[i]? = some p) (hv : unit'.vers = unit.vers) :
    Raises unit unit' i p 0 := by
  refine ⟨p, hi, ?_, fun _ _ => ⟨hv, rfl⟩⟩
  rw [hv]
  exact (UInt32.add_zero _).symm

theorem Raises.more (hi : unit'.part[i]? = some q) (hk : k ≠ 0)
    (hv : unit'.vers + q.vers = unit.vers + p.vers + UInt32.ofNat k) : Raises unit unit' i p k :=
  ⟨q, hi, hv, fun hz => absurd hz hk⟩

end

theorem raise_two (a b : ulong) : a + 1 + (b + 1) = a + b + UInt32.ofNat 2 := by
  rw [show UInt32.ofNat 2 = (1 : ulong) + 1 from rfl]
  ac_rfl

theorem raise_four (a b : ulong) : a + 1 + 1 + (b + 1 + 1) = a + b + UInt32.ofNat 4 := by
  rw [show UInt32.ofNat 4 = (1 : ulong) + 1 + 1 + 1 from rfl]
  ac_rfl

omit [DecidableEq N] [DecidableEq U] in
theorem Added.turns {name : N} {start end' : uvlong} (h : Added unit name start end' unit') :
    Turns unit unit' := by
  intro i p hi
  cases h with
  | grown n =>
    exact ⟨0, Nat.zero_le _, .same
      ((List.getElem?_append_left (List.getElem?_eq_some_iff.mp hi).1).trans hi) rfl⟩
  | filled n k pp eve hext hk hv hbefore =>
    have hi' : (unit.part ++ fresh n)[i]? = some p :=
      (List.getElem?_append_left (List.getElem?_eq_some_iff.mp hi).1).trans hi
    refine ⟨0, Nat.zero_le _, ?_⟩
    by_cases hki : k = i
    · subst hki
      obtain rfl : pp = p := Option.some.inj (hk.symm.trans hi')
      refine ⟨⟨start, end', some name, some eve, true, pp.vers⟩, ?_, (UInt32.add_zero _).symm,
        fun _ hp => ?_⟩
      · exact (List.getElem?_modify_eq ..).trans (congrArg (Option.map _) hk)
      · rw [hv] at hp
        cases hp
    · exact .same ((List.getElem?_modify_ne _ _ hki).trans hi') rfl

/-- A deletion raises the version of its slot. -/
theorem sddelpart_turns {user eve : U} {name : N} {r : SDunit N U × Option Err}
    (h : unit.sddelpart user eve name = some r) : Turns unit r.1 := by
  intro i p hi
  unfold SDunit.sddelpart at h
  split at h
  · cases h
  · cases h
    exact ⟨0, Nat.zero_le _, .same hi rfl⟩
  split at h
  · cases h
    exact ⟨0, Nat.zero_le _, .same hi rfl⟩
  rename_i k _ _
  cases h
  by_cases hki : k = i
  · subst hki
    refine ⟨1, by decide, .more (q := { p with valid := false, vers := p.vers + 1 }) ?_ (by decide)
      (UInt32.add_assoc _ _ _).symm⟩
    exact (List.getElem?_modify_eq ..).trans (congrArg (Option.map _) hi)
  · exact ⟨0, Nat.zero_le _, .same ((List.getElem?_modify_ne _ _ hki).trans hi) rfl⟩

omit [DecidableEq U] in
/-- New media raises every version, unless the table is as it was and there was none to find. -/
theorem sdinitpart_raises {eve : U} {data : N} {on : Online N} (hi : unit.part[i]? = some p) :
    (∃ k, 0 < k ∧ k ≤ 4 ∧ Raises unit (unit.sdinitpart eve data on).1 i p k) ∨
      Raises unit (unit.sdinitpart eve data on).1 i p 0 ∧ unit.sectors = 0 ∧
        ¬ (disktype unit.inquiry0 = true ∧ on.sectors ≠ 0) := by
  by_cases hz : unit.sectors = 0
  · rcases @sdinitpart_keeps N U _ unit eve data on hz with ⟨hv, hpart, hnot⟩ | ⟨hv, hkeeps⟩
    · exact .inr ⟨.same (hpart ▸ hi) hv, hz, hnot⟩
    · obtain ⟨q, hq, hqv⟩ := hkeeps i p hi
      refine .inl ⟨2, by decide, by decide, .more hq (by decide) ?_⟩
      rw [hv, hqv]
      exact raise_two _ _
  · rw [sdinitpart_emptied hz]
    obtain ⟨p', hp', hpv⟩ := (@sdincvers_keeps N U { unit with sectors := 0, secsize := 0 }).2 i p hi
    have hemptied : unit.emptied.vers = unit.vers + 1 := rfl
    rcases @sdinitpart_keeps N U _ unit.emptied eve data on rfl with ⟨hv, hpart, -⟩ | ⟨hv, hkeeps⟩
    · refine .inl ⟨2, by decide, by decide, .more (hpart ▸ hp') (by decide) ?_⟩
      rw [hv, hemptied, hpv]
      exact raise_two _ _
    · obtain ⟨q, hq, hqv⟩ := hkeeps i p' hp'
      refine .inl ⟨4, by decide, by decide, .more hq (by decide) ?_⟩
      rw [hv, hqv, hemptied, hpv]
      exact raise_four _ _

end

/-! ## Every run -/

/-- What holds of an open channel. -/
structure Opened.Holds (unit : SDunit N U) (o : Opened) : Prop where
  slot : ∃ p, unit.part[o.chan.part]? = some p ∧ (o.gone = false → p.valid = true) ∧
    unit.vers + p.vers = o.chan.vers + UInt32.ofNat o.age
  short : o.age < 4294967296
  raised : o.gone = true → 0 < o.age

section

variable {unit unit' : SDunit N U} {o : Opened}

omit [DecidableEq N] [DecidableEq U] in
theorem sum_eq {i : Nat} {p : SDpart N U} (h : unit.part[i]? = some p) :
    unit.sum i = unit.vers + p.vers := by
  unfold SDunit.sum
  rw [h]
  rfl

theorem raised_by {a b : ulong} {k : Nat} (hk : k ≤ 4) (h : b = a + UInt32.ofNat k) :
    (b - a).toNat = k := by
  rw [h, UInt32.toNat_sub, UInt32.toNat_add, UInt32.toNat_ofNat']
  have ha := a.toNat_lt
  omega

omit [DecidableEq U] in
theorem after_gone {changed : Bool} {p q : SDpart N U} (hp : unit.part[o.chan.part]? = some p)
    (hq : unit'.part[o.chan.part]? = some q) : (o.after unit unit' changed).gone = true ↔
      o.gone = true ∨ changed = true ∨ unit'.vers ≠ unit.vers ∨ q.what ≠ p.what := by
  simp [Opened.after, hp, hq, or_assoc]

omit [DecidableEq U] in
/-- A channel stays as the invariant says, if the media does not change unnoticed. -/
theorem Opened.Holds.after {changed : Bool} (h : o.Holds unit) (ht : Turns unit unit')
    (hage : o.age + 4 < 4294967296)
    (hchanged : changed = true → ∀ p, unit.part[o.chan.part]? = some p → p.valid = true →
      ∃ k, 0 < k ∧ k ≤ 4 ∧ Raises unit unit' o.chan.part p k) :
    (o.after unit unit' changed).Holds unit' := by
  obtain ⟨⟨p, hp, hvalid, hvers⟩, -, hraised⟩ := h
  obtain ⟨k, hk, hraise⟩ := ht _ p hp
  obtain ⟨q, hq, hqv, hsame⟩ := hraise
  have hsum : (unit'.sum o.chan.part - unit.sum o.chan.part).toNat = k := by
    rw [sum_eq hp, sum_eq hq]
    exact raised_by hk hqv
  have hafter : (o.after unit unit' changed).age = o.age + k := congrArg (o.age + ·) hsum
  refine ⟨⟨q, hq, fun hg => ?_, ?_⟩, ?_, fun hg => ?_⟩
  · have hno := mt (after_gone hp hq).mpr (Bool.eq_false_iff.mp hg)
    simp only [not_or, Bool.not_eq_true, not_not] at hno
    have hwhat : q.valid = p.valid := congrArg (·.2.2.2) hno.2.2.2
    rw [hwhat]
    exact hvalid hno.1
  · rw [hqv, hvers, hafter, UInt32.ofNat_add, UInt32.add_assoc]
    rfl
  · rw [hafter]
    omega
  · rw [hafter]
    -- where the version is the same, so is the partition
    by_cases hz : k = 0
    · refine Nat.lt_of_lt_of_le (hraised ?_) (Nat.le_add_right _ _)
      by_contra hno
      have hpv := hvalid (Bool.eq_false_iff.mpr hno)
      obtain ⟨hu, rfl⟩ := hsame hz hpv
      rcases (after_gone hp hq).mp hg with hgone | hch | hne | hne
      · exact hno hgone
      · obtain ⟨k', hpos, hk', q', hq', hqv', -⟩ := hchanged hch q hp hpv
        obtain rfl : q = q' := Option.some.inj (hq.symm.trans hq')
        have hzero : (unit'.vers + q.vers - (unit.vers + q.vers)).toNat = k' := raised_by hk' hqv'
        rw [hu, UInt32.sub_self] at hzero
        exact absurd hzero (Nat.ne_of_lt hpos)
      · exact hne hu
      · exact hne rfl
    · omega

omit [DecidableEq N] [DecidableEq U] in
theorem Opened.Holds.echange (h : o.Holds unit) (hg : o.gone = true) :
    ∃ p, unit.part[o.chan.part]? = some p ∧ unit.vers + p.vers ≠ o.chan.vers := by
  obtain ⟨⟨p, hp, -, hvers⟩, hshort, hraised⟩ := h
  refine ⟨p, hp, fun he => ?_⟩
  have hpos := hraised hg
  have hn := congrArg UInt32.toNat (hvers.symm.trans he)
  rw [UInt32.toNat_add, UInt32.toNat_ofNat'] at hn
  have hlt := o.chan.vers.toNat_lt
  omega

omit [DecidableEq U] in
/-- A channel whose version is not that of its slot is refused. -/
theorem sdbio_echange {p : SDpart N U} {c : Chan} (hp : unit.part[c.part]? = some p)
    (hv : unit.vers + p.vers ≠ c.vers) (write : Bool) (mem : Nat → UInt8) (len : Int32)
    (off : Int64) (env : Env N U) (disk : Nat → UInt8) :
    (unit.sdbio c write mem len off env disk).2 = .err .Echange := by
  unfold SDunit.sdbio
  rw [attempt_echange (⟨unit, len.toInt, [], disk, mem⟩ : Io N U) write off.toInt (env.room 0)
    (env.bio 0) hp hv]
  rfl

end

/-- The table is sound, and so is every channel. -/
structure Table.Inv (s : Table N U) : Prop where
  sound : Sound s.unit.sectors s.unit.part
  chans : ∀ o ∈ s.chans, o.Holds s.unit

section

variable {s s' : Table N U}

theorem Table.Inv.whole (h : s.Inv) : s.Whole where
  names := h.sound.names
  extents := h.sound.extents
  deletes _ _ _ := sddelpart_deletes h.sound.names
  refused o ho hg := by
    obtain ⟨p, hp, hv⟩ := (h.chans o ho).echange hg
    exact sdbio_echange hp hv

omit [DecidableEq U] in
theorem Table.Inv.turn (h : s.Inv) {changed : Bool} {unit' : SDunit N U}
    (hsound : Sound unit'.sectors unit'.part) (ht : Turns s.unit unit')
    (hage : ∀ o ∈ s.chans, o.age + 4 < 4294967296)
    (hchanged : changed = true → ∀ i p, s.unit.part[i]? = some p → p.valid = true →
      ∃ k, 0 < k ∧ k ≤ 4 ∧ Raises s.unit unit' i p k) : (s.turn changed unit').Inv where
  sound := hsound
  chans o ho := by
    obtain ⟨o', ho', rfl⟩ := List.mem_map.mp ho
    exact (h.chans o' ho').after ht (hage o' ho') fun hc => hchanged hc _

section
omit [DecidableEq N] [DecidableEq U]

/-- The versions, and the slots, of the unit that `sdinitpart` finds. -/
theorem media_raises {removed : Bool} {unit' : SDunit N U} {i k : Nat} {p : SDpart N U}
    (h : Raises (s.found removed) unit' i p k) : Raises s.unit unit' i p k := by
  unfold Table.found at h
  split at h <;> exact h

theorem found_part (removed : Bool) : (s.found removed).part = s.unit.part := by
  unfold Table.found
  split <;> rfl

theorem found_inquiry (removed : Bool) : (s.found removed).inquiry0 = s.unit.inquiry0 := by
  unfold Table.found
  split <;> rfl

end

theorem exec_inv (hi : s.Inv) {a : Change N U} (hs : s.exec a = some s') (hp : Proper s a) :
    s'.Inv := by
  obtain ⟨hage, hp⟩ := hp
  cases a with
  | sdaddpart eve room name start end' =>
    cases hs
    have hadd := sdaddpart_added s.unit eve room name start end'
    exact hi.turn (hadd.sound hi.sound hp).1 hadd.turns hage fun h => by cases h
  | sddelpart user eve name =>
    obtain ⟨r, hr, rfl⟩ := Option.map_eq_some_iff.mp hs
    exact hi.turn (sddelpart_sound hr hi.sound) (sddelpart_turns hr) hage fun h => by cases h
  | media removed eve data on =>
    cases hs
    have hsound : disktype (s.found removed).inquiry0 = true ∧ on.sectors ≠ 0 ∨
        Sound (s.found removed).sectors (s.found removed).part := by
      rw [found_inquiry, found_part]
      rcases hp with hno | hdisk | hnone
      · rw [hno]
        exact .inr hi.sound
      · exact .inl hdisk
      · exact .inr (sound_none hnone)
    refine hi.turn (sdinitpart_sound hsound) (fun i p hi => ?_) hage fun hr i p hi hv => ?_
    · rw [← found_part removed] at hi
      rcases sdinitpart_raises hi with ⟨k, -, hk, hraise⟩ | ⟨hraise, -⟩
      · exact ⟨k, hk, media_raises hraise⟩
      · exact ⟨0, Nat.zero_le _, media_raises hraise⟩
    · rw [← found_part removed] at hi
      rcases sdinitpart_raises hi with ⟨k, hpos, hk, hraise⟩ | ⟨-, -, hnot⟩
      · exact ⟨k, hpos, hk, media_raises hraise⟩
      · rw [found_inquiry] at hnot
        rw [found_part] at hi
        rcases hp with hno | hdisk | hnone
        · rw [hno] at hr
          cases hr
        · exact absurd hdisk hnot
        · rw [hnone p (List.mem_of_getElem? hi)] at hv
          cases hv
  | sdopen part =>
    obtain ⟨pp, hpp, hopen⟩ := Option.bind_eq_some_iff.mp hs
    split at hopen
    · rename_i hv
      cases hopen
      refine ⟨hi.sound, List.forall_mem_cons.mpr ⟨?_, hi.chans⟩⟩
      exact ⟨⟨pp, hpp, fun _ => hv, (UInt32.add_zero _).symm⟩, Nat.zero_lt_succ _, fun h => by cases h⟩
    · cases hopen

end

/-! ## The result -/

/-- In every run whose steps are proper the table is whole. -/
theorem table_whole {s : Table N U} (h : ((tables N U).restrict Proper).Reach s) : s.Whole := by
  refine Table.Inv.whole (Lts.Inductive.reach (I := Table.Inv) ⟨fun s hs => ?_, ?_⟩ h)
  · obtain ⟨hpart, hchans⟩ := hs
    refine ⟨?_, fun o ho => ?_⟩
    · rw [hpart]
      exact sound_none fun p hp => by cases hp
    · rw [hchans] at ho
      cases ho
  · exact fun s a s' hi hs => exec_inv hi hs.1 hs.2

/-! ## Two histories -/

private def blank : Table Nat Unit := ⟨⟨0, 0, [], 0, false, 0⟩, []⟩

/-- A unit of a hundred sectors. -/
private def fitted : Change Nat Unit := .media true () 0 ⟨100, 512, true, []⟩

private def whole : SDpart Nat Unit := ⟨0, 100, some 0, some (), true, 0⟩

private def unused : List (SDpart Nat Unit) := List.replicate 14 .zero

/-- The unit with a partition that is deleted while it is open. -/
private def dropped : Table Nat Unit where
  unit := ⟨100, 512, whole :: ⟨10, 20, some 1, some (), false, 1⟩ :: unused, 1, false, 0⟩
  chans := [⟨⟨1, 1⟩, true, 1⟩]

theorem proper_step {s s' : Table Nat Unit} {a : Change Nat Unit}
    (h : ((tables Nat Unit).restrict Proper).Reach s) (hs : s.exec a = some s') (hp : Proper s a) :
    ((tables Nat Unit).restrict Proper).Reach s' := h.step ⟨hs, hp⟩

/-- The slots behind the first ones are not valid. -/
theorem unused_valid {n i : Nat} {p : SDpart Nat Unit}
    (h : (List.replicate n SDpart.zero)[i]? = some p) : p.valid = false := by
  rw [List.getElem?_replicate] at h
  split at h
  · cases h
    rfl
  · cases h

theorem table_whole_dropped : dropped.Whole := by
  have h0 : ((tables Nat Unit).restrict Proper).Reach blank := ⟨[], .init ⟨rfl, rfl⟩⟩
  have h1 := proper_step h0 (a := fitted) rfl ⟨fun o ho => (by cases ho), .inr (.inl ⟨rfl, by decide⟩)⟩
  have h2 := proper_step h1 (a := .sdaddpart () true 1 10 20) rfl ⟨fun o ho => (by cases ho), ?_⟩
  · have h3 := proper_step h2 (a := .sdopen 1) rfl ⟨fun o ho => (by cases ho), trivial⟩
    refine table_whole (proper_step h3 (a := .sddelpart () () 1) rfl ⟨fun o ho => ?_, fun i p hi hno => ?_⟩)
    · cases ho with
      | head => decide
      | tail _ ho => cases ho
    · match i, hi with
      | 0, hi =>
        obtain rfl : whole = p := Option.some.inj hi
        exact ⟨by decide, fun hname => absurd hname (by decide)⟩
      | 1, hi =>
        obtain rfl : (⟨10, 20, some 1, some (), true, 0⟩ : SDpart Nat Unit) = p := Option.some.inj hi
        exact ⟨by decide, fun _ => .inl rfl⟩
      | i + 2, _ =>
        exact absurd rfl (hno 1 (by omega) ⟨10, 20, some 1, some (), true, 0⟩ rfl)
  · refine .inr (.inr fun i j p q hij _ _ hq hqv => ?_)
    match j, hq with
    | j + 1, hq =>
      rw [unused_valid hq] at hqv
      cases hqv

/-- The partition 2 is added again, into the hole that is in front of it. -/
theorem table_hole : ¬ ∀ s : Table Nat Unit, (tables Nat Unit).Reach s → s.Whole := by
  intro h
  have h0 : (tables Nat Unit).Reach blank := ⟨[], .init ⟨rfl, rfl⟩⟩
  have hs : [fitted, .sdaddpart () true 1 10 20, .sdaddpart () true 2 20 30, .sddelpart () () 1,
      .sdaddpart () true 2 30 40].foldlM Table.exec blank = some ⟨⟨100, 512,
        whole :: ⟨30, 40, some 2, some (), true, 1⟩ :: ⟨20, 30, some 2, some (), true, 0⟩ ::
          List.replicate 13 .zero, 1, false, 0⟩, []⟩ := rfl
  have hwhole := h _ (h0.exec (fun _ _ _ h => h) hs)
  exact absurd (hwhole.names 1 2 _ _ rfl rfl rfl rfl rfl) (by decide)

end NixMark.Sd
