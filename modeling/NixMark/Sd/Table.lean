import NixMark.Sd.Runs

/-!
# The table of partitions over time

* `Table`, `Change`: a unit with the channels that were opened on its partitions, and what may happen
  to it. A media change is a call of `sdinitpart`, before which the driver may have set the size of the
  unit to 0.
* `Table.Whole`: what the table keeps to; `Proper`: the steps that keep it so.
* `Added`: what `sdaddpart` does. `Added.sound`, `sdinitpart_sound`, `sddelpart_sound`: names and
  extents are kept.
-/

namespace NixMark.Sd

open Lib

variable {N U : Type}

/-! ## The system -/

/-- A channel on a partition. The rest is not in the code: whether the partition was deleted or
replaced since, or the media changed, and by how much its version has been raised. -/
structure Opened where
  chan : Chan
  gone : Bool
  age : Nat

structure Table (N U : Type) where
  unit : SDunit N U
  chans : List Opened

inductive Change (N U : Type) where
  | sdaddpart (eve : U) (room : Bool) (name : N) (start end' : uvlong)
  | sddelpart (user eve : U) (name : N)
  | media (removed : Bool) (eve : U) (data : N) (on : Online N)
  | sdopen (part : Nat)

/-- What a partition is. -/
def SDpart.what (pp : SDpart N U) : uvlong × uvlong × Option N × Bool :=
  (pp.start, pp.end, pp.name, pp.valid)

/-- `unit->vers+pp->vers` -/
def SDunit.sum (unit : SDunit N U) (i : Nat) : ulong :=
  unit.vers + (unit.part[i]?).elim 0 (·.vers)

variable [DecidableEq N] [DecidableEq U]

omit [DecidableEq U] in
def Opened.after (unit unit' : SDunit N U) (changed : Bool) (o : Opened) : Opened :=
  { o with
    gone := o.gone || changed || unit'.vers ≠ unit.vers ||
      (unit'.part[o.chan.part]?).map SDpart.what ≠ (unit.part[o.chan.part]?).map SDpart.what
    age := o.age + (unit'.sum o.chan.part - unit.sum o.chan.part).toNat }

namespace Table

omit [DecidableEq U] in
def turn (s : Table N U) (changed : Bool) (unit : SDunit N U) : Table N U :=
  ⟨unit, s.chans.map (Opened.after s.unit unit changed)⟩

/-- The unit that `sdinitpart` finds. -/
def found (s : Table N U) (removed : Bool) : SDunit N U :=
  if removed then { s.unit with sectors := 0 } else s.unit

/-- `none` where the kernel faults, or the partition cannot be opened. -/
def exec (s : Table N U) : Change N U → Option (Table N U)
  | .sdaddpart eve room name start end' =>
    some (s.turn false (s.unit.sdaddpart eve room name start end').1)
  | .sddelpart user eve name => (s.unit.sddelpart user eve name).map fun r => s.turn false r.1
  | .media removed eve data on => some (s.turn removed ((s.found removed).sdinitpart eve data on).1)
  | .sdopen part =>
    (s.unit.part[part]?).bind fun pp =>
      if pp.valid then
        some { s with chans := ⟨⟨part, s.unit.vers + pp.vers⟩, false, 0⟩ :: s.chans }
      else none

end Table

/-- A unit that was just found has no partitions. -/
def tables (N U : Type) [DecidableEq N] [DecidableEq U] : Lts (Table N U) (Change N U) where
  init s := s.unit.part = [] ∧ s.chans = []
  step s a s' := s.exec a = some s'

/-! ## Statements -/

/-- The slots of valid partitions with one name are one. -/
def Names (l : List (SDpart N U)) : Prop :=
  ∀ (i j : Nat) (p q : SDpart N U), l[i]? = some p → l[j]? = some q → p.valid = true →
    q.valid = true → p.name = q.name → i = j

def Extents (sectors : uvlong) (l : List (SDpart N U)) : Prop :=
  ∀ p ∈ l, p.valid = true → p.start ≤ p.end ∧ p.end ≤ sectors

/-- No valid partition of the name is behind a slot that is not valid. -/
def Seen (name : N) (l : List (SDpart N U)) : Prop :=
  ∀ (i j : Nat) (p q : SDpart N U), i < j → l[i]? = some p → p.valid = false → l[j]? = some q →
    q.valid = true → q.name ≠ some name

/-- Up to the first slot of the name all slots have names, and that one is valid or may not be
deleted by the user. -/
def Deletable (user eve : U) (name : N) (l : List (SDpart N U)) : Prop :=
  ∀ (i : Nat) (p : SDpart N U), l[i]? = some p →
    (∀ j < i, ∀ q : SDpart N U, l[j]? = some q → q.name ≠ some name) →
    p.name ≠ none ∧ (p.name = some name → p.valid = true ∨ p.user ≠ some user ∧ user ≠ eve)

/-- `sddelpart` deletes the valid partition of the name, or raises an error and changes nothing. -/
def Deletes (unit : SDunit N U) (user eve : U) (name : N) : Prop :=
  ∃ r, unit.sddelpart user eve name = some r ∧ (r.2 ≠ none → r.1 = unit) ∧
    (r.2 = none → ∃ (i : Nat) (p : SDpart N U), unit.part[i]? = some p ∧ p.valid = true ∧
      p.name = some name ∧ (∀ (j : Nat) (q : SDpart N U), unit.part[j]? = some q →
        q.valid = true → q.name = some name → j = i) ∧
      r.1 = { unit with part := unit.part.modify i fun pp =>
        { pp with valid := false, vers := pp.vers + 1 } })

structure Table.Whole (s : Table N U) : Prop where
  names : Names s.unit.part
  extents : Extents s.unit.sectors s.unit.part
  deletes : ∀ user eve name, Deletable user eve name s.unit.part → Deletes s.unit user eve name
  refused : ∀ o ∈ s.chans, o.gone = true → ∀ write mem len off env disk,
    (s.unit.sdbio o.chan write mem len off env disk).2 = .err .Echange

/-- A partition is added whose name is not used behind a hole of the table, or with a wrong extent;
a deletion finds a valid partition; where the driver has set the size of the old media to 0 there is
new media, or no partition; and no version is raised `2 ^ 32` times while a channel is open. -/
def Proper (s : Table N U) (a : Change N U) : Prop :=
  (∀ o ∈ s.chans, o.age + 4 < 4294967296) ∧
  match a with
  | .sdaddpart _ _ name start end' =>
    start > end' ∨ end' > s.unit.sectors ∨ Seen name s.unit.part
  | .sddelpart user eve name => Deletable user eve name s.unit.part
  | .media removed _ _ on => removed = false ∨
    disktype s.unit.inquiry0 = true ∧ on.sectors ≠ 0 ∨ ∀ p ∈ s.unit.part, p.valid = false
  | .sdopen _ => True

/-! ## The table -/

section

variable {name : N} {start end' sectors : uvlong} {l : List (SDpart N U)}

omit [DecidableEq U] in
/-- Where the search for a slot ends. -/
theorem search_free {i k : Nat} (h : search name start end' i l = .free k) :
    ∃ n pp, k = i + n ∧ l[n]? = some pp ∧ pp.valid = false ∧
      ∀ j < n, ∀ q, l[j]? = some q → q.valid = true ∧ q.name ≠ some name := by
  induction l generalizing i with
  | nil => cases h
  | cons pp l ih =>
    unfold search at h
    split at h
    · rename_i hv
      cases h
      exact ⟨0, pp, rfl, rfl, by simpa using hv, fun j hj => absurd hj (Nat.not_lt_zero j)⟩
    · rename_i hv
      split at h
      · split at h <;> cases h
      · rename_i hname
        obtain ⟨n, p, rfl, hp, hpv, hbefore⟩ := ih h
        refine ⟨n + 1, p, by omega, hp, hpv, fun j hj q hq => ?_⟩
        cases j with
        | zero =>
          obtain rfl := Option.some.inj hq
          exact ⟨by simpa using hv, hname⟩
        | succ j => exact hbefore j (Nat.lt_of_succ_lt_succ hj) q hq

omit [DecidableEq U] in
theorem search_none {i : Nat} (h : search name start end' i l = .none) :
    ∀ q ∈ l, q.valid = true ∧ q.name ≠ some name := by
  induction l generalizing i with
  | nil =>
    intro q hq
    cases hq
  | cons pp l ih =>
    unfold search at h
    split at h
    · cases h
    · rename_i hv
      split at h
      · split at h <;> cases h
      · rename_i hname
        intro q hq
        rcases List.mem_cons.mp hq with rfl | hq
        · exact ⟨by simpa using hv, hname⟩
        · exact ih h q hq

/-- Slots that were never used. -/
def fresh (n : Nat) : List (SDpart N U) := List.replicate n .zero

omit [DecidableEq N] [DecidableEq U] in
/-- A slot behind the table is not valid. -/
theorem append_fresh {n i : Nat} {p : SDpart N U} (h : (l ++ fresh n)[i]? = some p) :
    l[i]? = some p ∨ l.length ≤ i ∧ p = .zero := by
  by_cases hi : i < l.length
  · rw [List.getElem?_append_left hi] at h
    exact .inl h
  · have hi := Nat.le_of_not_lt hi
    rw [List.getElem?_append_right hi] at h
    obtain ⟨hlt, he⟩ := List.getElem?_eq_some_iff.mp h
    exact .inr ⟨hi, by rw [← he]; exact List.getElem_replicate ..⟩

/-- What `sdaddpart` does: nothing, but that the table may grow; or it fills the first slot that is
not valid, before which the name is not used. -/
inductive Added (unit : SDunit N U) (name : N) (start end' : uvlong) : SDunit N U → Prop
  | grown (n : Nat) : Added unit name start end' { unit with part := unit.part ++ fresh n }
  | filled (n k : Nat) (pp : SDpart N U) (eve : U) (hext : start ≤ end' ∧ end' ≤ unit.sectors)
      (hk : (unit.part ++ fresh n)[k]? = some pp) (hv : pp.valid = false)
      (hbefore : ∀ j < k, ∀ q, (unit.part ++ fresh n)[j]? = some q →
        q.valid = true ∧ q.name ≠ some name) :
      Added unit name start end'
        { unit with part := (unit.part ++ fresh n).modify k fun pp =>
          ⟨start, end', some name, some eve, true, pp.vers⟩ }

section
omit [DecidableEq N] [DecidableEq U]

theorem Added.same (unit : SDunit N U) : Added unit name start end' unit := by
  have h : Added unit name start end' { unit with part := unit.part ++ fresh 0 } := .grown 0
  rwa [show fresh 0 = ([] : List (SDpart N U)) from rfl, List.append_nil] at h

/-- A slot that was found is filled if the extent is right. -/
theorem setpart_added (unit : SDunit N U) (eve : U) (n k : Nat) {pp : SDpart N U}
    (hk : (unit.part ++ fresh n)[k]? = some pp) (hv : pp.valid = false)
    (hbefore : ∀ j < k, ∀ q, (unit.part ++ fresh n)[j]? = some q →
      q.valid = true ∧ q.name ≠ some name) :
    Added unit name start end' (unit.setpart eve name start end' (unit.part ++ fresh n) k).1 := by
  unfold SDunit.setpart
  split
  · exact .grown n
  · rename_i hext
    obtain ⟨hle, hend⟩ := not_or.mp hext
    exact .filled n k pp eve ⟨UInt64.not_lt.mp hle, UInt64.not_lt.mp hend⟩ hk hv hbefore

end

omit [DecidableEq U] in
theorem sdaddpart_added (unit : SDunit N U) (eve : U) (room : Bool) (name : N)
    (start end' : uvlong) :
    Added unit name start end' (unit.sdaddpart eve room name start end').1 := by
  unfold SDunit.sdaddpart
  dsimp only
  split
  · rename_i hnil
    split
    · have hzero : (unit.part ++ fresh SDnpart)[0]? = some .zero := by
        rw [hnil]
        rfl
      have h : Added unit name start end' _ := setpart_added unit eve SDnpart 0 hzero rfl
        fun j hj => absurd hj (Nat.not_lt_zero j)
      rw [hnil, List.nil_append] at h
      exact h
    · exact .same unit
  · split
    · exact .same unit
    · exact .same unit
    · rename_i partno hs
      obtain ⟨k, pp, rfl, hk, hv, hbefore⟩ := search_free hs
      rw [← List.append_nil unit.part] at hk hbefore
      have h : Added unit name start end' _ := setpart_added unit eve 0 k hk hv hbefore
      rw [show fresh 0 = ([] : List (SDpart N U)) from rfl, List.append_nil] at h
      rw [Nat.zero_add]
      exact h
    · rename_i hs
      split
      · exact .same unit
      · have hzero : (unit.part ++ fresh SDnpart)[unit.part.length]? = some .zero := by
          rw [List.getElem?_append_right (Nat.le_refl _), Nat.sub_self]
          rfl
        refine setpart_added unit eve SDnpart unit.part.length hzero rfl fun j hj q hq => ?_
        rw [List.getElem?_append_left hj] at hq
        exact search_none hs q (List.mem_of_getElem? hq)

end

/-! ### Names and extents -/

/-- What holds of a table: the names differ, and the extents are in the unit. -/
structure Sound (sectors : uvlong) (l : List (SDpart N U)) : Prop where
  names : Names l
  extents : Extents sectors l

/-- The valid slots come first. -/
def Packed (l : List (SDpart N U)) : Prop :=
  ∀ (i j : Nat) (p q : SDpart N U), i < j → l[i]? = some p → l[j]? = some q → q.valid = true →
    p.valid = true

section

omit [DecidableEq N] [DecidableEq U]

variable {name : N} {start end' sectors : uvlong} {l : List (SDpart N U)} {unit unit' : SDunit N U}

theorem Packed.seen (h : Packed l) (name : N) : Seen name l := by
  intro i j p q hij hp hpv hq hqv
  rw [h i j p q hij hp hq hqv] at hpv
  cases hpv

theorem sound_none (h : ∀ p ∈ l, p.valid = false) : Sound sectors l where
  names i j p q hp _ hpv _ _ := by
    rw [h p (List.mem_of_getElem? hp)] at hpv
    cases hpv
  extents p hp hpv := by
    rw [h p hp] at hpv
    cases hpv

theorem packed_none (h : ∀ p ∈ l, p.valid = false) : Packed l := by
  intro i j p q _ _ hq hqv
  rw [h q (List.mem_of_getElem? hq)] at hqv
  cases hqv

/-- A valid slot of a table that has grown is one of the table before. -/
theorem append_valid {n i : Nat} {p : SDpart N U} (h : (l ++ fresh n)[i]? = some p)
    (hv : p.valid = true) : l[i]? = some p := by
  rcases append_fresh h with h | ⟨-, rfl⟩
  · exact h
  · cases hv

theorem Sound.append (h : Sound sectors l) (n : Nat) : Sound sectors (l ++ fresh n) where
  names i j p q hp hq hpv hqv := h.names i j p q (append_valid hp hpv) (append_valid hq hqv) hpv hqv
  extents p hp hpv := by
    obtain ⟨i, hi⟩ := List.getElem?_of_mem hp
    exact h.extents p (List.mem_of_getElem? (append_valid hi hpv)) hpv

theorem Seen.append (h : Seen name l) (n : Nat) : Seen name (l ++ fresh n) := by
  intro i j p q hij hp hpv hq hqv
  have hq' := append_valid hq hqv
  have hlt := (List.getElem?_eq_some_iff.mp hq').1
  rw [List.getElem?_append_left (Nat.lt_trans hij hlt)] at hp
  exact h i j p q hij hp hpv hq' hqv

theorem Packed.append (h : Packed l) (n : Nat) : Packed (l ++ fresh n) := by
  intro i j p q hij hp hq hqv
  have hq' := append_valid hq hqv
  have hlt := (List.getElem?_eq_some_iff.mp hq').1
  rw [List.getElem?_append_left (Nat.lt_trans hij hlt)] at hp
  exact h i j p q hij hp hq' hqv

/-- A slot of a table in which one was filled. -/
theorem filled_get {k i : Nat} {f : SDpart N U → SDpart N U} {p : SDpart N U}
    (h : (l.modify k f)[i]? = some p) : (i = k ∧ ∃ q, l[k]? = some q ∧ p = f q) ∨ i ≠ k ∧ l[i]? = some p := by
  rw [List.getElem?_modify] at h
  by_cases hk : k = i
  · subst hk
    obtain ⟨q, hq, he⟩ := Option.map_eq_some_iff.mp h
    rw [if_pos rfl] at he
    exact .inl ⟨rfl, q, hq, he.symm⟩
  · obtain ⟨q, hq, he⟩ := Option.map_eq_some_iff.mp h
    rw [if_neg hk] at he
    subst he
    exact .inr ⟨fun he => hk he.symm, hq⟩

/-- Filling keeps the table sound if the name is not used behind a hole. -/
theorem Added.sound (h : Added unit name start end' unit') (hs : Sound unit.sectors unit.part)
    (hseen : start > end' ∨ end' > unit.sectors ∨ Seen name unit.part) :
    Sound unit'.sectors unit'.part ∧ unit'.sectors = unit.sectors := by
  cases h with
  | grown n => exact ⟨hs.append n, rfl⟩
  | filled n k pp eve hext hk hv hbefore =>
    have hs := hs.append n
    have hseen : Seen name (unit.part ++ fresh n) := by
      rcases hseen with hbad | hbad | hseen
      · exact absurd hbad (UInt64.not_lt.mpr hext.1)
      · exact absurd hbad (UInt64.not_lt.mpr hext.2)
      · exact hseen.append n
    -- another valid slot does not have the name
    have hother : ∀ i p, i ≠ k → (unit.part ++ fresh n)[i]? = some p → p.valid = true →
        p.name ≠ some name := by
      intro i p hik hp hpv
      rcases Nat.lt_or_gt_of_ne hik with hlt | hgt
      · exact (hbefore i hlt p hp).2
      · exact hseen k i pp p hgt hk hv hp hpv
    refine ⟨⟨fun i j p q hp hq hpv hqv hname => ?_, fun p hp hpv => ?_⟩, rfl⟩
    · rcases filled_get hp with ⟨rfl, p', hp', rfl⟩ | ⟨hik, hi⟩
      · rcases filled_get hq with ⟨rfl, -⟩ | ⟨hjk, hj⟩
        · rfl
        · exact absurd hname.symm (hother j q hjk hj hqv)
      · rcases filled_get hq with ⟨rfl, q', hq', rfl⟩ | ⟨hjk, hj⟩
        · exact absurd hname (hother i p hik hi hpv)
        · exact hs.names i j p q hi hj hpv hqv hname
    · obtain ⟨i, hi⟩ := List.getElem?_of_mem hp
      rcases filled_get hi with ⟨-, q, -, rfl⟩ | ⟨-, hi⟩
      · exact hext
      · exact hs.extents p (List.mem_of_getElem? hi) hpv

theorem Added.packed (h : Added unit name start end' unit') (hp : Packed unit.part) :
    Packed unit'.part := by
  cases h with
  | grown n => exact hp.append n
  | filled n k pp eve hext hk hv hbefore =>
    have hpack := hp.append n
    intro i j p q hij hp hq hqv
    rcases filled_get hp with ⟨-, p', -, rfl⟩ | ⟨hik, hi⟩
    · rfl
    · rcases filled_get hq with ⟨rfl, -⟩ | ⟨hjk, hj⟩
      · exact (hbefore i hij p hi).1
      · exact hpack i j p q hij hi hj hqv

end

/-! ### New media -/

section

variable {unit : SDunit N U} {eve : U} {data : N} {on : Online N}

omit [DecidableEq U] in
theorem conf_sound {conf : List (N × uvlong × uvlong × Bool)}
    (hs : Sound unit.sectors unit.part) (hp : Packed unit.part) :
    Sound (conf.foldl (fun unit p => (unit.sdaddpart eve p.2.2.2 p.1 p.2.1 p.2.2.1).1) unit).sectors
      (conf.foldl (fun unit p => (unit.sdaddpart eve p.2.2.2 p.1 p.2.1 p.2.2.1).1) unit).part := by
  induction conf generalizing unit with
  | nil => exact hs
  | cons p conf ih =>
    have hadd := sdaddpart_added unit eve p.2.2.2 p.1 p.2.1 p.2.2.1
    exact ih (hadd.sound hs (.inr (.inr (hp.seen p.1)))).1 (hadd.packed hp)

omit [DecidableEq N] [DecidableEq U] in
theorem sdincvers_none (unit : SDunit N U) : ∀ p ∈ unit.sdincvers.part, p.valid = false := by
  intro p hp
  obtain ⟨q, -, rfl⟩ := List.mem_map.mp hp
  rfl

omit [DecidableEq U] in
/-- The table of new media, or of none. -/
theorem sdinitpart_fresh (hz : unit.sectors = 0)
    (h : disktype unit.inquiry0 = true ∧ on.sectors ≠ 0 ∨ Sound unit.sectors unit.part) :
    Sound (unit.sdinitpart eve data on).1.sectors (unit.sdinitpart eve data on).1.part := by
  have hpos : ¬ unit.sectors > 0 := by
    rw [hz]
    decide
  unfold SDunit.sdinitpart
  simp only [if_neg hpos]
  split
  · rename_i hnot
    rcases h with ⟨hdisk, -⟩ | hsound
    · rw [hdisk] at hnot
      cases hnot
    · exact hsound
  split
  · rename_i hempty
    rcases h with ⟨-, hon⟩ | hsound
    · exact absurd hempty hon
    · rw [hz, ← hempty] at hsound
      exact hsound
  have hnone :=
    sdincvers_none ({ unit with sectors := on.sectors, secsize := on.secsize } : SDunit N U)
  have hadd := sdaddpart_added
    ({ unit with sectors := on.sectors, secsize := on.secsize } : SDunit N U).sdincvers eve on.room data
    0 on.sectors
  have hsound := (hadd.sound (sound_none hnone) (.inr (.inr ((packed_none hnone).seen data)))).1
  have hpacked := hadd.packed (packed_none hnone)
  split
  · rename_i heq
    rw [heq] at hsound
    exact hsound
  · rename_i heq
    rw [heq] at hsound hpacked
    exact conf_sound hsound hpacked

omit [DecidableEq N] [DecidableEq U] in
/-- What `sdinitpart` makes of a unit that has media. -/
def SDunit.emptied (unit : SDunit N U) : SDunit N U :=
  ({ unit with sectors := 0, secsize := 0 } : SDunit N U).sdincvers

omit [DecidableEq U] in
theorem sdinitpart_emptied (hz : unit.sectors ≠ 0) :
    unit.sdinitpart eve data on = unit.emptied.sdinitpart eve data on := by
  unfold SDunit.sdinitpart
  rw [if_pos (UInt64.pos_iff_ne_zero.mpr hz)]
  rfl

omit [DecidableEq U] in
theorem sdinitpart_sound (h : disktype unit.inquiry0 = true ∧ on.sectors ≠ 0 ∨
    Sound unit.sectors unit.part) :
    Sound (unit.sdinitpart eve data on).1.sectors (unit.sdinitpart eve data on).1.part := by
  by_cases hz : unit.sectors = 0
  · exact sdinitpart_fresh hz h
  · rw [sdinitpart_emptied hz]
    exact sdinitpart_fresh rfl (.inr (sound_none (sdincvers_none _)))

end

/-! ### Deletions -/

section

variable {l : List (SDpart N U)} {unit : SDunit N U} {user eve : U} {name : N}

omit [DecidableEq U] in
theorem find_slot {i k : Nat} (h : find name i l = .slot k) :
    ∃ (n : Nat) (pp : SDpart N U), k = i + n ∧ l[n]? = some pp ∧ pp.name = some name ∧
      ∀ j < n, ∀ q : SDpart N U, l[j]? = some q → q.name ≠ some name := by
  induction l generalizing i with
  | nil => cases h
  | cons pp l ih =>
    unfold find at h
    split at h
    · cases h
    · rename_i n hn
      split at h
      · rename_i heq
        cases h
        exact ⟨0, pp, rfl, rfl, by rw [hn, heq], fun j hj => absurd hj (Nat.not_lt_zero j)⟩
      · rename_i hne
        obtain ⟨m, p, rfl, hp, hname, hbefore⟩ := ih h
        refine ⟨m + 1, p, by omega, hp, hname, fun j hj q hq => ?_⟩
        cases j with
        | zero =>
          obtain rfl := Option.some.inj hq
          rw [hn]
          exact fun he => hne (Option.some.inj he)
        | succ j => exact hbefore j (Nat.lt_of_succ_lt_succ hj) q hq

omit [DecidableEq U] in
theorem find_fault {i : Nat} (h : find name i l = .fault) :
    ∃ (n : Nat) (pp : SDpart N U), l[n]? = some pp ∧ pp.name = none ∧
      ∀ j < n, ∀ q : SDpart N U, l[j]? = some q → q.name ≠ some name := by
  induction l generalizing i with
  | nil => cases h
  | cons pp l ih =>
    unfold find at h
    split at h
    · rename_i hn
      exact ⟨0, pp, rfl, hn, fun j hj => absurd hj (Nat.not_lt_zero j)⟩
    · rename_i n hn
      split at h
      · cases h
      · rename_i hne
        obtain ⟨m, p, hp, hname, hbefore⟩ := ih h
        refine ⟨m + 1, p, hp, hname, fun j hj q hq => ?_⟩
        cases j with
        | zero =>
          obtain rfl := Option.some.inj hq
          rw [hn]
          exact fun he => hne (Option.some.inj he)
        | succ j => exact hbefore j (Nat.lt_of_succ_lt_succ hj) q hq

theorem sddelpart_deletes (hs : Names unit.part) (hd : Deletable user eve name unit.part) :
    Deletes unit user eve name := by
  unfold Deletes SDunit.sddelpart
  cases hf : find name 0 unit.part with
  | Ebadctl => exact ⟨_, rfl, fun _ => rfl, fun h => by cases h⟩
  | fault =>
    obtain ⟨n, pp, hn, hnone, hbefore⟩ := find_fault hf
    exact absurd hnone (hd n pp hn hbefore).1
  | slot k =>
    obtain ⟨n, pp, hk, hn, hname, hbefore⟩ := find_slot hf
    obtain rfl : k = n := hk.trans (Nat.zero_add n)
    have huser : unit.part[k]?.bind (·.user) = pp.user := by
      rw [hn]
      rfl
    dsimp only
    rw [huser]
    split
    · exact ⟨_, rfl, fun _ => rfl, fun h => by cases h⟩
    · rename_i hperm
      have hv : pp.valid = true := ((hd k pp hn hbefore).2 hname).resolve_right hperm
      refine ⟨_, rfl, fun h => absurd rfl h, fun _ => ⟨k, pp, hn, hv, hname, ?_, rfl⟩⟩
      intro j q hq hqv hqname
      exact hs j k q pp hq hn hqv hv (hqname.trans hname.symm)

omit [DecidableEq N] [DecidableEq U] in
/-- A table with fewer valid partitions. -/
theorem Sound.fewer {sectors : uvlong} {l' : List (SDpart N U)} (h : Sound sectors l)
    (hl : ∀ (i : Nat) (p : SDpart N U), l'[i]? = some p → p.valid = true → l[i]? = some p) :
    Sound sectors l' where
  names i j p q hp hq hpv hqv := h.names i j p q (hl i p hp hpv) (hl j q hq hqv) hpv hqv
  extents p hp hpv := by
    obtain ⟨i, hi⟩ := List.getElem?_of_mem hp
    exact h.extents p (List.mem_of_getElem? (hl i p hi hpv)) hpv

theorem sddelpart_sound {r : SDunit N U × Option Err} (h : unit.sddelpart user eve name = some r)
    (hs : Sound unit.sectors unit.part) : Sound r.1.sectors r.1.part := by
  unfold SDunit.sddelpart at h
  split at h
  · cases h
  · cases h
    exact hs
  split at h
  · cases h
    exact hs
  · cases h
    refine hs.fewer fun i p hp hpv => ?_
    rcases filled_get hp with ⟨-, q, -, rfl⟩ | ⟨-, hi⟩
    · cases hpv
    · exact hi

end

end NixMark.Sd
