import NixMark.Sd.Outside

/-!
# Reads and writes in every reachable state

* `Inside`: a call that stays inside; `Good`: the condition. `sdbio_keeps`: it is enough.
* `Plain`: sizes far from the ends of the types; `sdbio_strays`: there the condition on the first
  attempt is needed.
* `sdbio_inside`: for every reachable table and every channel. `sdbio_before`: a write that destroys
  what is before the partition.
-/

namespace NixMark.Sd

open Lib

variable {N U : Type} [DecidableEq N] [DecidableEq U]

/-- The call reaches only sectors of the partition and bytes of its buffer, and on success has moved
exactly the bytes from the offset on. -/
structure Inside (pp : SDpart N U) (write : Bool) (mem : Nat → UInt8) (off : Int)
    (disk : Nat → UInt8) (out : Io N U × Res) : Prop where
  reqs : ∀ q ∈ out.1.reqs, q.Within pp
  buffer : out.2 ≠ .fault
  moved : ∀ r, out.2 = .ok r →
    Moved (pp.start.toNat * out.1.unit.secsize.toNat + off) r write mem disk out.1

/-- The unit as a second attempt finds it. -/
def SDunit.again (unit : SDunit N U) (env : Env N U) : SDunit N U :=
  (({ unit with sectors := 0 } : SDunit N U).sdinitpart env.eve env.data env.online).1

/-- Each attempt that the call may make is safe; the second one may have less to transfer. -/
structure Good (unit : SDunit N U) (c : Chan) (write : Bool) (len : Int32) (off : Int64)
    (env : Env N U) : Prop where
  first : unit.Safe c write len.toInt off.toInt (env.room 0) (env.bio 0)
  second : ∀ n : Int, n = len.toInt ∨ 0 ≤ n ∧ n ≤ len.toInt →
    (unit.again env).Safe c write n off.toInt (env.room 1) (env.bio 1)

variable {unit : SDunit N U} {pp : SDpart N U} {c : Chan} {write : Bool} {mem disk : Nat → UInt8}
  {len : Int32} {off : Int64} {env : Env N U} {io : Io N U}

omit [DecidableEq N] [DecidableEq U] in
theorem attempt_echange (io : Io N U) (write : Bool) (off : Int) (room : Bool)
    (ans : Answer × Answer) (hpp : io.unit.part[c.part]? = some pp) (hv : io.unit.vers + pp.vers ≠ c.vers) :
    io.attempt c write off room ans = (io, .err .Echange, true) := by
  unfold Io.attempt
  simp only [hpp]
  rw [if_pos hv]

theorem vers_add_two (a b : ulong) : a + 1 + (b + 1) ≠ a + b := by
  intro h
  have hn := congrArg UInt32.toNat h
  simp only [UInt32.toNat_add, UInt32.toNat_one] at hn
  omega

omit [DecidableEq U] in
/-- Good attempts make a good call. -/
theorem sdbio_keeps (hpp : unit.part[c.part]? = some pp) (hg : Good unit c write len off env) :
    Inside pp write mem off.toInt disk (unit.sdbio c write mem len off env disk) := by
  have hlen : len.toInt < 2 ^ 31 := len.toInt_lt
  have hd := attempt_does ⟨unit, len.toInt, [], disk, mem⟩ hpp hlen hg.first
  have hv := attempt_echange ⟨unit, len.toInt, [], disk, mem⟩ write off.toInt (env.room 0) (env.bio 0)
    hpp
  unfold SDunit.sdbio
  generalize (⟨unit, len.toInt, [], disk, mem⟩ : Io N U).attempt c write off.toInt (env.room 0)
    (env.bio 0) = out at hd hv ⊢
  obtain ⟨io, res, caught⟩ := out
  obtain ⟨⟨l, hl, hwithin⟩, ⟨n, hunit⟩, hlength, hbuffer, hfailed, hmoved⟩ := hd
  dsimp only at hl hunit hlength hbuffer hfailed hmoved ⊢
  rw [List.nil_append] at hl
  split
  · rename_i hretry
    obtain ⟨rfl, -, hz⟩ := hretry
    have hn : n = 0 := by
      rw [hunit] at hz
      exact hz
    obtain ⟨hdisk, hmem⟩ := hfailed nofun
    have hvers : unit.vers + pp.vers = c.vers := by
      by_contra hne
      have hres := hv hne
      simp at hres
    have hkeeps := @sdinitpart_keeps N U _ { unit with sectors := 0 } env.eve env.data env.online rfl
    have hsecond := hg.second io.len hlength
    unfold SDunit.again at hsecond
    rw [hunit, hn]
    generalize ({ unit with sectors := 0 } : SDunit N U).sdinitpart env.eve env.data env.online = o
      at hkeeps hsecond ⊢
    obtain ⟨u, e, b⟩ := o
    dsimp only at hkeeps hsecond ⊢
    cases e with
    | some e => exact ⟨hl ▸ hwithin, nofun, nofun⟩
    | none =>
      dsimp only
      obtain ⟨hu, hpart, -⟩ | ⟨hu, hpart⟩ := hkeeps
      · have hpp' : u.part[c.part]? = some pp := hpart ▸ hpp
        have hlt : io.len < 2 ^ 31 := by omega
        have hd := attempt_does { io with unit := u } hpp' hlt hsecond
        generalize ({ io with unit := u } : Io N U).attempt c write off.toInt (env.room 1)
          (env.bio 1) = out at hd ⊢
        obtain ⟨io', res, caught'⟩ := out
        obtain ⟨⟨l', hl', hwithin'⟩, ⟨m, hunit'⟩, -, hbuffer', -, hmoved'⟩ := hd
        dsimp only at hl' hunit' hbuffer' hmoved' ⊢
        refine ⟨?_, hbuffer', fun r hr => ?_⟩
        · rw [hl', hl]
          exact fun q hq => (List.mem_append.mp hq).elim (hwithin q) (hwithin' q)
        · have hdone := hmoved' r hr
          rw [hdisk, hmem] at hdone
          rw [hunit']
          exact hdone
      · obtain ⟨pp', hpp', hv'⟩ := hpart c.part pp hpp
        have hne : u.vers + pp'.vers ≠ c.vers := by
          rw [hu, hv', ← hvers]
          exact vers_add_two _ _
        have hres := attempt_echange { io with unit := u } write off.toInt (env.room 1) (env.bio 1) hpp'
          hne
        rw [hres]
        exact ⟨hl ▸ hwithin, nofun, nofun⟩
  · exact ⟨hl ▸ hwithin, hbuffer, fun r hr => by rw [hunit]; exact hmoved r hr⟩

/-! ## Every reachable table -/

omit [DecidableEq U] in
theorem sdbio_grows : unit.part.length ≤
    (unit.sdbio c write mem len off env disk).1.unit.part.length := by
  unfold SDunit.sdbio
  obtain ⟨⟨n, hn⟩, -⟩ := @attempt_frame N U ⟨unit, len.toInt, [], disk, mem⟩ write c off.toInt (env.room 0)
    (env.bio 0)
  generalize (⟨unit, len.toInt, [], disk, mem⟩ : Io N U).attempt c write off.toInt (env.room 0)
    (env.bio 0) = out at hn ⊢
  obtain ⟨io, res, caught⟩ := out
  dsimp only at hn ⊢
  split
  · have hgrows := @sdinitpart_grows N U _ io.unit env.eve env.data env.online
    rw [hn] at hgrows
    rw [hn]
    split
    · rename_i heq
      rw [heq] at hgrows
      exact hgrows
    · rename_i u b heq
      rw [heq] at hgrows
      obtain ⟨⟨m, hm⟩, -⟩ := @attempt_frame N U { io with unit := u } write c off.toInt (env.room 1)
        (env.bio 1)
      rw [hm]
      exact hgrows
  · rw [hn]

/-- The slots of the open channels are in the table. -/
def Sys.Slots (s : Sys N U) : Prop := ∀ c ∈ s.chans, c.part < s.unit.part.length

theorem exec_grows {s s' : Sys N U} {a : Act N U} (h : s.exec a = some s') :
    s.unit.part.length ≤ s'.unit.part.length ∧
      ∀ c ∈ s'.chans, c ∈ s.chans ∨ c.part < s.unit.part.length := by
  cases a with
  | part vers eve data on room name start end' =>
    dsimp only [Sys.exec] at h
    split at h
    · cases h
      exact ⟨Nat.le_refl _, fun _ hc => .inl hc⟩
    split at h
    · have hgrows := @sdinitpart_grows N U _ s.unit eve data on
      split at h
      · rename_i heq
        cases h
        rw [heq] at hgrows
        exact ⟨hgrows.trans sdaddpart_keeps.2.length, fun _ hc => .inl hc⟩
      · rename_i heq
        cases h
        rw [heq] at hgrows
        exact ⟨hgrows, fun _ hc => .inl hc⟩
    · cases h
      exact ⟨sdaddpart_keeps.2.length, fun _ hc => .inl hc⟩
  | delpart vers user eve name =>
    dsimp only [Sys.exec] at h
    split at h
    · cases h
      exact ⟨Nat.le_refl _, fun _ hc => .inl hc⟩
    · obtain ⟨r, hr, rfl⟩ := Option.map_eq_some_iff.mp h
      refine ⟨?_, fun _ hc => .inl hc⟩
      unfold SDunit.sddelpart at hr
      split at hr
      · cases hr
      · cases hr
        exact Nat.le_refl _
      · split at hr
        · cases hr
          exact Nat.le_refl _
        · cases hr
          exact (List.length_modify ..).ge
  | initpart eve data on =>
    cases h
    exact ⟨sdinitpart_grows, fun _ hc => .inl hc⟩
  | online sectors secsize =>
    cases h
    exact ⟨Nat.le_refl _, fun _ hc => .inl hc⟩
  | «open» part =>
    obtain ⟨pp, hpp, hopen⟩ := Option.bind_eq_some_iff.mp h
    split at hopen
    · cases hopen
      refine ⟨Nat.le_refl _, List.forall_mem_cons.mpr ⟨.inr ?_, fun _ hc => .inl hc⟩⟩
      exact (List.getElem?_eq_some_iff.mp hpp).1
    · cases hopen
  | sdbio c write mem len off env disk =>
    dsimp only [Sys.exec] at h
    split at h
    · cases h
      exact ⟨sdbio_grows, fun _ hc => .inl hc⟩
    · cases h

theorem slots_reach {s : Sys N U} (h : (storage N U).Reach s) : s.Slots := by
  refine Lts.Inductive.reach (I := Sys.Slots) ⟨fun s hs c hc => ?_, fun s a s' hi hs c hc => ?_⟩ h
  · rw [hs.2] at hc
    cases hc
  · obtain ⟨hgrows, hchans⟩ := exec_grows hs
    obtain hold | hlt := hchans c hc
    · exact (hi c hold).trans_le hgrows
    · exact hlt.trans_le hgrows

/-! ## The result -/

/-- Sizes that are far from the ends of the types, a length that is not negative, and a driver that
answers the first request. -/
structure Plain (unit : SDunit N U) (pp : SDpart N U) (len : Int32) (off : Int64)
    (ans : Answer × Answer) : Prop where
  length : 0 ≤ len.toInt
  low : -2 ^ 62 ≤ off.toInt
  last : off.toInt + len.toInt + unit.secsize.toNat - 1 < 2 ^ 63
  below : pp.end.toNat < 2 ^ 62
  answers : ans.1.sectors ≠ none

omit [DecidableEq U] in
/-- An attempt that is not safe makes the call leave the partition or the buffer. -/
theorem sdbio_strays (hpp : unit.part[c.part]? = some pp) (hp : Plain unit pp len off (env.bio 0))
    (h : ¬ unit.Safe c write len.toInt off.toInt (env.room 0) (env.bio 0)) :
    ¬ Inside pp write mem off.toInt disk (unit.sdbio c write mem len off env disk) := by
  intro hin
  have hout := @attempt_outside N U ⟨unit, len.toInt, [], disk, mem⟩ pp off.toInt c write (env.bio 0)
    hpp hp.length len.toInt_lt hp.low hp.last hp.below hp.answers (env.room 0) h
  obtain ⟨hreqs, hbuffer, -⟩ := hin
  unfold SDunit.sdbio at hreqs hbuffer
  generalize (⟨unit, len.toInt, [], disk, mem⟩ : Io N U).attempt c write off.toInt (env.room 0)
    (env.bio 0) = out at hout hreqs hbuffer
  obtain ⟨io, res, caught⟩ := out
  dsimp only at hout hreqs hbuffer
  obtain rfl | ⟨q, hq, hwithin⟩ := hout
  · rw [if_neg fun hretry => nomatch hretry.1] at hbuffer
    exact hbuffer rfl
  · refine hwithin (hreqs q ?_)
    split
    · split
      · exact hq
      · rename_i u b heq
        exact (@attempt_frame N U { io with unit := u } write c off.toInt (env.room 1)
          (env.bio 1)).reqs q hq
    · exact hq

/-- In every reachable state a read or write through an open channel stays inside the partition when
each of its attempts is safe; and when its sizes are plain, only if the first one is. -/
theorem sdbio_inside {s : Sys N U} (h : (storage N U).Reach s) {c : Chan} (hc : c ∈ s.chans)
    (write : Bool) (mem : Nat → UInt8) (len : Int32) (off : Int64) (env : Env N U)
    (disk : Nat → UInt8) : ∃ pp, s.unit.part[c.part]? = some pp ∧
      (Good s.unit c write len off env →
        Inside pp write mem off.toInt disk (s.unit.sdbio c write mem len off env disk)) ∧
      (Plain s.unit pp len off (env.bio 0) →
        Inside pp write mem off.toInt disk (s.unit.sdbio c write mem len off env disk) →
          s.unit.Safe c write len.toInt off.toInt (env.room 0) (env.bio 0)) := by
  have hpp := List.getElem?_eq_getElem (slots_reach h c hc)
  exact ⟨_, hpp, sdbio_keeps hpp, fun hp hin => by_contra fun hs => sdbio_strays hpp hp hs hin⟩

/-! ## One partition -/

/-- A disk of a hundred sectors with the partition of the sectors 10 to 19, which is open. -/
private def setup : List (Act Nat Unit) :=
  [.part 0 () 0 ⟨100, 512, true, []⟩ true 1 10 20, .open 1]

private def found : Sys Nat Unit := ⟨⟨0, 0, [], 0, false, 0⟩, []⟩

private def driver : Env Nat Unit :=
  ⟨fun _ => true, fun _ => (⟨some 8, false⟩, ⟨some 8, false⟩), ⟨100, 512, true, []⟩, 0, ()⟩

private def third : SDpart Nat Unit := ⟨10, 20, some 1, some (), true, 0⟩

private def table : Sys Nat Unit where
  unit := ⟨100, 512, ⟨0, 100, some 0, some (), true, 0⟩ :: third :: List.replicate 14 .zero, 1, false,
    0⟩
  chans := [⟨1, 1⟩]

private theorem opened : (storage Nat Unit).Reach table := by
  have hreach : (storage Nat Unit).Reach found := ⟨[], .init ⟨rfl, rfl⟩⟩
  have hs : setup.foldlM Sys.exec found = some table := rfl
  exact hreach.exec (fun _ _ _ h => h) hs

theorem sdbio_inside_write : Inside third true (fun _ => 7) 0 (fun _ => 0)
    (table.unit.sdbio ⟨1, 1⟩ true (fun _ => 7) 512 0 driver fun _ => 0) := by
  obtain ⟨pp, hpp, hgood, -⟩ := sdbio_inside opened (List.mem_singleton_self (⟨1, 1⟩ : Chan)) true (fun _ => 7)
    512 0 driver fun _ => 0
  obtain rfl : third = pp := Option.some.inj hpp
  refine hgood ⟨fun pp hpp _ _ _ _ => ?_, fun n _ pp hpp hv => ?_⟩
  · obtain rfl : third = pp := Option.some.inj hpp
    exact ⟨⟨by decide, by decide, by decide, by decide⟩, fun _ h => absurd rfl h⟩
  · obtain rfl : (⟨10, 20, some 1, some (), false, 1⟩ : SDpart Nat Unit) = pp := Option.some.inj hpp
    exact absurd hv (by decide)

/-- A write of a sector, one sector below the partition: it succeeds, on the sector 9. -/
theorem sdbio_before : (storage Nat Unit).Reach table ∧
    ∃ c ∈ table.chans, table.unit.part[c.part]? = some third ∧
      ∃ out, table.unit.sdbio c true (fun _ => 7) 512 (-512) driver (fun _ => 0) = (out, .ok 512) ∧
        (∃ q ∈ out.reqs, q.bno = 9 ∧ ¬ q.Within third) ∧ out.disk (9 * 512) = 7 := by
  refine ⟨opened, ⟨1, 1⟩, List.mem_singleton_self _, rfl, _, rfl, ⟨⟨true, 1, 9⟩, ?_, rfl, ?_⟩, rfl⟩
  · exact List.mem_singleton_self _
  · exact fun h => absurd h.above (by decide)

end NixMark.Sd
