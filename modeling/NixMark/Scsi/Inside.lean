import Mathlib.Data.Nat.Basic
import NixMark.Scsi.Fake

/-!
# What SCSI emulation stores

* `Inside`: the stores are in the buffer, and `rlen` is no more than its size.
* `LongCapacity`, `WideInfo`: the requests that are answered with more bytes than were asked for.
* `scsi_inside`: which requests stay inside, and what `sdrio` copies back.
-/

namespace NixMark.Scsi

open Lib

/-- A request with a buffer of `dlen` bytes, or none. -/
structure SDreq.Ready (r : SDreq) : Prop where
  nonneg : 0 ≤ r.dlen
  nil : r.data = none ↔ r.dlen = 0

/-- What was stored is within the first `dlen` bytes of `r->data`, and so is what `rlen` counts. -/
structure Fake.Inside (x : Fake) : Prop where
  stores : ∀ w ∈ x.stores, ∃ data ∈ x.r.data, data ≤ w.2 ∧ (w.2 : Int) < data + x.r.dlen
  nonneg : 0 ≤ x.r.rlen
  le : x.r.rlen ≤ x.r.dlen

/-- A long read capacity that passes its tests, with a buffer of 8 bytes to 11. -/
def LongCapacity (r : SDreq) : Prop :=
  r.cmd 0 = 0x9E ∧ r.cmd 1 >>> 5 = 0 ∧ r.cmd 1 &&& 0x01 = 0 ∧ r.cmd 2 = 0 ∧ r.cmd 3 = 0 ∧
    8 ≤ r.dlen ∧ r.dlen < 12

/-- A mode sense that passes its tests, with a block whose size and 8 are no `int` together. -/
def WideInfo (r : SDreq) (cmd : Nat → UInt8) (ilen : Int) : Prop :=
  (page cmd = 0 ∨ page cmd = 0x3F) ∧ alloclen cmd ≠ 0 ∧ alloclen cmd ≤ r.dlen ∧
    2147483648 ≤ 8 + ilen

namespace Fake

variable {x : Fake}

@[simp] theorem put_r (x : Fake) (p : Nat) (l : List UInt8) : (x.put p l).r = x.r := rfl

/-- Bytes are stored into the buffer. -/
theorem Inside.put (h : x.Inside) {data p : Nat} {l : List UInt8} (hdata : x.r.data = some data)
    (hp : data ≤ p) (hl : (p : Int) + l.length ≤ data + x.r.dlen) : (x.put p l).Inside where
  stores := by
    rintro ⟨b, q⟩ hw
    rcases List.mem_append.mp hw with hw | hw
    · exact h.stores _ hw
    · have hlow := List.le_snd_of_mem_zipIdx hw
      have hhigh := List.snd_lt_add_of_mem_zipIdx hw
      dsimp only at hlow hhigh
      refine ⟨data, hdata, Nat.le_trans hp hlow, ?_⟩
      show (q : Int) < data + x.r.dlen
      omega
  nonneg := h.nonneg
  le := h.le

theorem Inside.setrlen (h : x.Inside) {rlen : Int} (h0 : 0 ≤ rlen) (hle : rlen ≤ x.r.dlen) :
    (x.setrlen rlen).Inside :=
  ⟨h.stores, h0, hle⟩

/-- `sdsetsense` stores nothing into the buffer. -/
theorem inside_sense {status : Int} {key asc ascq : UInt8} :
    (sdsetsense x status key asc ascq).2.Inside ↔ x.Inside := by
  unfold sdsetsense
  dsimp only
  split
  · exact ⟨fun h => ⟨h.stores, h.nonneg, h.le⟩, fun h => ⟨h.stores, h.nonneg, h.le⟩⟩
  · exact ⟨fun h => ⟨h.stores, h.nonneg, h.le⟩, fun h => ⟨h.stores, h.nonneg, h.le⟩⟩

end Fake

theorem bytes_length (a : Nat → UInt8) (len : Nat) : (bytes a len).length = len := by
  rw [bytes, List.length_map, List.length_range]

theorem bigendian_length (len : UInt64) (n : Nat) : (bigendian len n).length = n := by
  induction n with
  | zero => rfl
  | succ n ih => rw [bigendian, List.length_cons, ih]

theorem alloclen_range (cmd : Nat → UInt8) : 0 ≤ alloclen cmd ∧ alloclen cmd < 65536 := by
  have := (cmd 7).toNat_lt
  have := (cmd 8).toNat_lt
  unfold alloclen
  omega

/-! ## The emulated commands -/

section

variable {x : Fake}

theorem copyback_inside (h : x.Inside) (a : Nat → UInt8) (size : Nat) :
    (copyback x a size).2.Inside := by
  unfold copyback
  rw [Fake.inside_sense]
  generalize (if (x.r.cmd 4).toNat < size then (x.r.cmd 4).toNat else size) = len
  cases hd : x.r.data with
  | none => exact h
  | some data =>
    dsimp only
    split
    · rename_i hle
      refine (h.put hd (Nat.le_refl data) ?_).setrlen (Int.natCast_nonneg len) hle
      rw [bytes_length]
      omega
    · exact h

theorem capacity_inside (h : x.Inside) {n : Nat} :
    (capacity x n).2.Inside ↔
      ¬ (x.r.cmd 1 &&& 0x01 = 0 ∧ x.r.cmd 2 = 0 ∧ x.r.cmd 3 = 0 ∧ x.r.data ≠ none ∧
        8 ≤ x.r.dlen ∧ x.r.dlen < n + 4) := by
  unfold capacity
  split
  · rename_i hbad
    rw [Fake.inside_sense]
    refine iff_of_true h fun ⟨h1, h2, h3, _⟩ => ?_
    rcases hbad with hbad | hbad | hbad
    · exact hbad h1
    · exact hbad h2
    · exact hbad h3
  rename_i hgood
  cases hd : x.r.data with
  | none =>
    dsimp only
    rw [Fake.inside_sense]
    exact iff_of_true h fun ⟨_, _, _, hne, _⟩ => hne rfl
  | some data =>
    dsimp only
    split
    · rename_i hsmall
      rw [Fake.inside_sense]
      refine iff_of_true h fun ⟨_, _, _, _, hge, _⟩ => ?_
      omega
    · rename_i hlarge
      rw [Fake.inside_sense]
      simp only [not_or, Decidable.not_not] at hgood
      constructor
      · rintro ⟨-, -, hle⟩ ⟨-, -, -, -, -, hlt⟩
        have hle : (n : Int) + 4 ≤ x.r.dlen := hle
        omega
      · intro hnot
        have hle : (n : Int) + 4 ≤ x.r.dlen := by
          by_contra hgt
          refine hnot ⟨hgood.1, hgood.2.1, hgood.2.2, Option.some_ne_none data, ?_, ?_⟩ <;> omega
        refine ((h.put hd (Nat.le_refl data) ?_).put hd (Nat.le_add_right _ _)
          ?_).setrlen (by omega) hle
        · rw [bigendian_length]
          omega
        · rw [bigendian_length, Fake.put_r]
          omega

variable {ilen : Int}

theorem modesense_inside (h : x.Inside) (hr : x.r.Ready) (cmd info : Nat → UInt8) (h0 : 0 ≤ ilen)
    (hlt : ilen < 2147483648) :
    (sdmodesense x cmd info ilen).2.Inside ↔ ¬ WideInfo x.r cmd ilen := by
  have hlen := alloclen_range cmd
  unfold sdmodesense
  dsimp only
  split
  · rename_i hpage
    rw [Fake.inside_sense]
    exact iff_of_true h fun hw => hw.1.elim hpage.1 hpage.2
  rename_i hpage
  split
  · rename_i hzero
    exact iff_of_true h fun hw => hw.2.1 hzero
  rename_i hne
  split
  · rename_i hsmall
    rw [Fake.inside_sense]
    refine iff_of_true h fun hw => ?_
    have hwide := hw.2.2.2
    unfold long at hsmall
    omega
  rename_i hfits
  cases hd : x.r.data with
  | none =>
    dsimp only
    rw [Fake.inside_sense]
    refine iff_of_true h fun hw => ?_
    have := hr.nil.mp hd
    have := hw.2.2.1
    omega
  | some data =>
    dsimp only
    split
    · rename_i hshort
      rw [Fake.inside_sense]
      refine iff_of_true h fun hw => ?_
      have := hw.2.2.1
      omega
    · rename_i hroom
      rw [Fake.inside_sense]
      constructor
      · rintro ⟨-, hnonneg, -⟩ ⟨-, -, -, hwide⟩
        have hnonneg : 0 ≤ long (8 + ilen) := hnonneg
        unfold long at hnonneg
        omega
      · intro hnot
        have hint : 8 + ilen < 2147483648 := by
          by_contra hwide
          refine hnot ⟨?_, hne, by omega, by omega⟩
          by_cases hp : page cmd = 0
          · exact .inl hp
          · exact .inr (Decidable.not_not.mp fun hp' => hpage ⟨hp, hp'⟩)
        rw [long_eq (by omega) hint] at hfits ⊢
        have hfirst : (x.put data (bytes (fun _ => 0) 8)).Inside := by
          refine h.put hd (Nat.le_refl data) ?_
          rw [bytes_length]
          omega
        have hsecond := hfirst.put (l := [UInt8.ofInt (ilen / 256), UInt8.ofInt ilen]) hd
          (Nat.le_refl data) (by rw [Fake.put_r]; show (data : Int) + 2 ≤ _; omega)
        split
        · refine (hsecond.put hd (Nat.le_add_right _ _) ?_).setrlen ?_ ?_
          · rw [bytes_length, Fake.put_r, Fake.put_r]
            omega
          · omega
          · rw [Fake.put_r, Fake.put_r, Fake.put_r]
            omega
        · refine hsecond.setrlen (by omega) ?_
          rw [Fake.put_r, Fake.put_r]
          omega

end

/-! ## Short commands -/

variable {cmd : Nat → UInt8}

theorem rewrite_long (h : cmd 0 ≠ 0x08) (h' : cmd 0 ≠ 0x0A) : rewrite cmd = cmd :=
  if_neg fun he => he.elim h h'

/-- They become reads and writes. -/
theorem rewrite_short (h : cmd 0 = 0x08 ∨ cmd 0 = 0x0A) :
    rewrite cmd 0 = 0x28 ∨ rewrite cmd 0 = 0x2A := by
  have hval : rewrite cmd 0 = cmd 0 ||| 0x20 := by
    unfold rewrite
    rw [if_pos h]
    rfl
  rw [hval]
  rcases h with h | h
  · rw [h]
    exact .inl rfl
  · rw [h]
    exact .inr rfl

/-- Other commands are not rewritten. -/
theorem rewrite_eq {b : UInt8} (h28 : b ≠ 0x28) (h2A : b ≠ 0x2A) (h : rewrite cmd 0 = b) :
    rewrite cmd = cmd := by
  by_cases hshort : cmd 0 = 0x08 ∨ cmd 0 = 0x0A
  · rcases rewrite_short hshort with hr | hr
    · exact absurd (h.symm.trans hr) h28
    · exact absurd (h.symm.trans hr) h2A
  · obtain ⟨hne, hne'⟩ := not_or.mp hshort
    exact rewrite_long hne hne'

theorem rewrite_of {b : UInt8} (h8 : b ≠ 0x08) (hA : b ≠ 0x0A) (h : cmd 0 = b) :
    rewrite cmd = cmd :=
  rewrite_long (fun h' => h8 (h.symm.trans h')) fun h' => hA (h.symm.trans h')

/-! ## All commands -/

/-- The request with which the commands are emulated. -/
def start (r : SDreq) (unit : SDunit) : Fake :=
  ⟨{ r with rlen := 0, cmd := rewrite r.cmd }, unit, []⟩

variable {r : SDreq}

theorem start_inside (hr : r.Ready) (unit : SDunit) : (start r unit).Inside where
  stores w hw := by cases hw
  nonneg := Int.le_refl 0
  le := hr.nonneg

/-- A mode sense with a large block. -/
def WideSense (r : SDreq) (ilen : Int) : Prop :=
  r.cmd 0 = 0x5A ∧ r.cmd 1 >>> 5 = 0 ∧ WideInfo r r.cmd ilen

/-- Other commands are of neither kind. -/
theorem other_kind {ilen : Int}
    (h : rewrite r.cmd 1 >>> 5 ≠ 0 ∨ rewrite r.cmd 0 ≠ 0x9E ∧ rewrite r.cmd 0 ≠ 0x5A) :
    ¬ LongCapacity r ∧ ¬ WideSense r ilen := by
  constructor
  · rintro ⟨hcmd, hlun, -⟩
    rw [rewrite_of (by decide) (by decide) hcmd] at h
    exact h.elim (fun h => h hlun) fun h => h.1 hcmd
  · rintro ⟨hcmd, hlun, -⟩
    rw [rewrite_of (by decide) (by decide) hcmd] at h
    exact h.elim (fun h => h hlun) fun h => h.2 hcmd

theorem sdfakescsi_inside (hr : r.Ready) (unit : SDunit) (info : Nat → UInt8) {ilen : Int}
    (h0 : 0 ≤ ilen) (hlt : ilen < 2147483648) :
    (sdfakescsi r unit info ilen).2.Inside ↔ ¬ LongCapacity r ∧ ¬ WideSense r ilen := by
  have hstart := start_inside hr unit
  have hready : (start r unit).r.Ready := ⟨hr.nonneg, hr.nil⟩
  show (if _ then _ else _ : Int × Fake).2.Inside ↔ _
  split
  · rename_i hlun
    exact iff_of_true (Fake.inside_sense.mpr hstart) (other_kind (.inl hlun.1))
  rename_i hlun
  split
  · rename_i h
    exact iff_of_true (Fake.inside_sense.mpr hstart)
      (other_kind (.inr (by rw [show rewrite r.cmd 0 = 0x00 from h]; decide)))
  split
  · rename_i h
    exact iff_of_true (copyback_inside hstart _ _)
      (other_kind (.inr (by rw [show rewrite r.cmd 0 = 0x03 from h]; decide)))
  split
  · rename_i h
    exact iff_of_true (copyback_inside hstart _ _)
      (other_kind (.inr (by rw [show rewrite r.cmd 0 = 0x12 from h]; decide)))
  rename_i hinq
  have hlun : rewrite r.cmd 1 >>> 5 = 0 :=
    Decidable.not_not.mp fun hne => hlun ⟨hne, hinq⟩
  split
  · rename_i h
    exact iff_of_true (Fake.inside_sense.mpr hstart)
      (other_kind (.inr (by rw [show rewrite r.cmd 0 = 0x1B from h]; decide)))
  split
  · rename_i h
    refine iff_of_true ((capacity_inside hstart).mpr fun hbad => ?_)
      (other_kind (.inr (by rw [show rewrite r.cmd 0 = 0x25 from h]; decide)))
    have := hbad.2.2.2.2
    omega
  split
  · -- long read capacity
    rename_i h
    have h : rewrite r.cmd 0 = 0x9E := h
    have he : rewrite r.cmd = r.cmd := rewrite_eq (by decide) (by decide) h
    rw [he] at h hlun
    have hsense : ¬ WideSense r ilen := fun hw => absurd (h.symm.trans hw.1) (by decide)
    refine (capacity_inside hstart).trans ?_
    rw [and_iff_left hsense, not_iff_not]
    show (rewrite r.cmd 1 &&& 0x01 = 0 ∧ rewrite r.cmd 2 = 0 ∧ rewrite r.cmd 3 = 0 ∧
      r.data ≠ none ∧ 8 ≤ r.dlen ∧ r.dlen < 12) ↔ LongCapacity r
    rw [he]
    constructor
    · rintro ⟨h1, h2, h3, -, hge, hle⟩
      exact ⟨h, hlun, h1, h2, h3, hge, hle⟩
    · rintro ⟨-, -, h1, h2, h3, hge, hle⟩
      refine ⟨h1, h2, h3, fun hd => ?_, hge, hle⟩
      have := hr.nil.mp hd
      omega
  rename_i hcap
  split
  · -- mode sense
    rename_i h
    have h : rewrite r.cmd 0 = 0x5A := h
    have he : rewrite r.cmd = r.cmd := rewrite_eq (by decide) (by decide) h
    refine (modesense_inside hstart hready _ _ h0 hlt).trans ?_
    show ¬ WideInfo (start r unit).r (rewrite r.cmd) ilen ↔ _
    rw [he] at h hlun ⊢
    have hlong : ¬ LongCapacity r := fun hw => absurd (h.symm.trans hw.1) (by decide)
    rw [and_iff_right hlong, not_iff_not]
    exact ⟨fun hw => ⟨h, hlun, hw⟩, fun hw => hw.2.2⟩
  rename_i hmode
  have hnone : ¬ LongCapacity r ∧ ¬ WideSense r ilen := other_kind (.inr ⟨hcap, hmode⟩)
  split
  · exact iff_of_true hstart hnone
  · exact iff_of_true (Fake.inside_sense.mpr hstart) hnone

/-! ## Raw requests -/

/-- What the emulation leaves as it was. -/
structure Fake.Keeps (x y : Fake) : Prop where
  write : y.r.write = x.r.write
  dlen : y.r.dlen = x.r.dlen

section

variable {x : Fake}

theorem sense_keeps (status : Int) (key asc ascq : UInt8) :
    x.Keeps (sdsetsense x status key asc ascq).2 := by
  unfold sdsetsense
  dsimp only
  split
  · exact ⟨rfl, rfl⟩
  · exact ⟨rfl, rfl⟩

theorem Fake.Keeps.sense {y : Fake} (h : x.Keeps y) (status : Int) (key asc ascq : UInt8) :
    x.Keeps (sdsetsense y status key asc ascq).2 :=
  have hs := sense_keeps (x := y) status key asc ascq
  ⟨hs.write.trans h.write, hs.dlen.trans h.dlen⟩

theorem copyback_keeps (a : Nat → UInt8) (size : Nat) : x.Keeps (copyback x a size).2 := by
  unfold copyback
  refine Fake.Keeps.sense ?_ _ _ _ _
  generalize (if (x.r.cmd 4).toNat < size then (x.r.cmd 4).toNat else size) = len
  cases x.r.data with
  | none => exact ⟨rfl, rfl⟩
  | some data =>
    dsimp only
    split
    · exact ⟨rfl, rfl⟩
    · exact ⟨rfl, rfl⟩

theorem capacity_keeps (n : Nat) : x.Keeps (capacity x n).2 := by
  unfold capacity
  dsimp only
  split
  · exact sense_keeps ..
  · split
    · exact sense_keeps ..
    · split
      · exact sense_keeps ..
      · rename_i data _ _
        have hput : x.Keeps (((x.put data (bigendian (x.unit.sectors - 1) n)).put (data + n)
          (bigendian 512 4)).setrlen (n + 4)) := ⟨rfl, rfl⟩
        exact hput.sense ..

/-- Mode sense counts no more bytes than there are, when it stores more as well. -/
theorem modesense_keeps (cmd info : Nat → UInt8) (ilen : Int) :
    x.Keeps (sdmodesense x cmd info ilen).2 ∧
      (x.r.rlen ≤ x.r.dlen → (sdmodesense x cmd info ilen).2.r.rlen ≤ x.r.dlen) := by
  have hrlen : ∀ (y : Fake) (status : Int) (key asc ascq : UInt8),
      (sdsetsense y status key asc ascq).2.r.rlen = y.r.rlen := by
    intro y status key asc ascq
    unfold sdsetsense
    dsimp only
    split <;> rfl
  unfold sdmodesense
  dsimp only
  split
  · exact ⟨sense_keeps .., fun h => by rwa [hrlen]⟩
  split
  · exact ⟨⟨rfl, rfl⟩, fun h => h⟩
  split
  · exact ⟨sense_keeps .., fun h => by rwa [hrlen]⟩
  rename_i hfits
  split
  · exact ⟨sense_keeps .., fun h => by rwa [hrlen]⟩
  split
  · exact ⟨sense_keeps .., fun h => by rwa [hrlen]⟩
  rename_i hroom
  refine ⟨Fake.Keeps.sense ?_ _ _ _ _, fun _ => ?_⟩
  · split
    · exact ⟨rfl, rfl⟩
    · exact ⟨rfl, rfl⟩
  · rw [hrlen]
    show long (8 + ilen) ≤ x.r.dlen
    omega

end

theorem sdfakescsi_keeps (r : SDreq) (unit : SDunit) (info : Nat → UInt8) (ilen : Int) :
    (start r unit).Keeps (sdfakescsi r unit info ilen).2 := by
  show (start r unit).Keeps (if _ then _ else _ : Int × Fake).2
  split
  · exact sense_keeps ..
  split
  · exact sense_keeps ..
  split
  · exact copyback_keeps ..
  split
  · exact copyback_keeps ..
  split
  · exact sense_keeps ..
  split
  · exact capacity_keeps 4
  split
  · exact capacity_keeps 8
  split
  · exact (modesense_keeps ..).1
  split
  · exact ⟨rfl, rfl⟩
  · exact sense_keeps ..

/-- A mode sense is answered by `sdmodesense`. -/
theorem sdfakescsi_sense (unit : SDunit) (info : Nat → UInt8) {ilen : Int} (hcmd : r.cmd 0 = 0x5A)
    (hlun : r.cmd 1 >>> 5 = 0) :
    sdfakescsi r unit info ilen = sdmodesense (start r unit) r.cmd info ilen := by
  have he : rewrite r.cmd = r.cmd := rewrite_of (by decide) (by decide) hcmd
  unfold sdfakescsi
  dsimp only
  rw [he, hcmd, hlun]
  show sdmodesense ⟨{ r with rlen := 0, cmd := r.cmd }, unit, []⟩ r.cmd info ilen = _
  unfold start
  rw [he]

/-- A long read capacity counts twelve bytes. -/
theorem sdfakescsi_long (hr : r.Ready) (unit : SDunit) (info : Nat → UInt8) (ilen : Int)
    (h : LongCapacity r) : (sdfakescsi r unit info ilen).1 = SDok ∧
      (sdfakescsi r unit info ilen).2.r.rlen = 12 := by
  obtain ⟨hcmd, hlun, h1, h2, h3, hge, -⟩ := h
  have he : rewrite r.cmd = r.cmd := rewrite_of (by decide) (by decide) hcmd
  have hcall : sdfakescsi r unit info ilen = capacity (start r unit) 8 := by
    unfold sdfakescsi start
    dsimp only
    rw [he, hcmd, hlun]
    rfl
  cases hd : r.data with
  | none =>
    have := hr.nil.mp hd
    omega
  | some data =>
    have hcap : capacity (start r unit) 8 =
        sdsetsense ((((start r unit).put data (bigendian (unit.sectors - 1) 8)).put (data + 8)
          (bigendian 512 4)).setrlen 12) SDok 0 0 0 := by
      unfold capacity
      rw [if_neg, show (start r unit).r.data = some data from hd]
      · show (if r.dlen < 8 then _ else _) = _
        rw [if_neg (Int.not_lt.mpr hge)]
        rfl
      · show ¬ (rewrite r.cmd 1 &&& 0x01 ≠ 0 ∨ rewrite r.cmd 2 ≠ 0 ∨ rewrite r.cmd 3 ≠ 0)
        rw [he]
        exact fun hbad => hbad.elim (fun h => h h1) fun hbad => hbad.elim (fun h => h h2) fun h => h h3
    rw [hcall, hcap]
    exact ⟨rfl, rfl⟩

/-- Which requests count more bytes than they have. -/
theorem rlen_le (hr : r.Ready) (unit : SDunit) (info : Nat → UInt8) {ilen : Int} (h0 : 0 ≤ ilen)
    (hlt : ilen < 2147483648) :
    (sdfakescsi r unit info ilen).2.r.rlen ≤ r.dlen ↔ ¬ LongCapacity r := by
  constructor
  · intro hle hlong
    rw [(sdfakescsi_long hr unit info ilen hlong).2] at hle
    have := hlong.2.2.2.2.2.2
    omega
  · intro hlong
    by_cases hwide : WideSense r ilen
    · rw [sdfakescsi_sense unit info hwide.1 hwide.2.1]
      exact (modesense_keeps r.cmd info ilen).2 hr.nonneg
    · have hin := ((sdfakescsi_inside hr unit info h0 hlt).mpr ⟨hlong, hwide⟩).le
      rwa [(sdfakescsi_keeps r unit info ilen).dlen] at hin

/-- The emulation is for all commands but reads and writes. -/
def emulated (cmd : Nat → UInt8) : Prop :=
  rewrite cmd 1 >>> 5 ≠ 0 ∨ rewrite cmd 0 ≠ 0x28 ∧ rewrite cmd 0 ≠ 0x2A ∧ rewrite cmd 0 ≠ 0x88 ∧
    rewrite cmd 0 ≠ 0x8a

theorem check_status (x : Fake) (key asc ascq : UInt8) :
    (sdsetsense x SDcheck key asc ascq).1 ≠ SDnostatus := by
  have hok : SDok ≠ SDnostatus := by decide
  have hcheck : SDcheck ≠ SDnostatus := by decide
  unfold sdsetsense
  dsimp only
  split
  · exact hok
  · exact hcheck

theorem ok_status (x : Fake) (key asc ascq : UInt8) :
    (sdsetsense x SDok key asc ascq).1 = SDok := by
  unfold sdsetsense
  dsimp only
  rw [if_neg fun h => absurd h.1 (show SDok ≠ SDcheck by decide)]

theorem ok_ne (x : Fake) (key asc ascq : UInt8) :
    (sdsetsense x SDok key asc ascq).1 ≠ SDnostatus := by
  rw [ok_status]
  decide

theorem capacity_status (x : Fake) (n : Nat) : (capacity x n).1 ≠ SDnostatus := by
  unfold capacity
  dsimp only
  split
  · exact check_status _ _ _ _
  split
  · exact check_status _ _ _ _
  split
  · exact check_status _ _ _ _
  · exact ok_ne _ _ _ _

theorem modesense_status (x : Fake) (cmd info : Nat → UInt8) (ilen : Int) :
    (sdmodesense x cmd info ilen).1 ≠ SDnostatus := by
  have hok : SDok ≠ SDnostatus := by decide
  unfold sdmodesense
  dsimp only
  split
  · exact check_status _ _ _ _
  split
  · exact hok
  split
  · exact check_status _ _ _ _
  split
  · exact check_status _ _ _ _
  split
  · exact check_status _ _ _ _
  · exact ok_ne _ _ _ _

/-- Emulated commands have a status. -/
theorem emulated_status (unit : SDunit) (info : Nat → UInt8) (ilen : Int) (h : emulated r.cmd) :
    (sdfakescsi r unit info ilen).1 ≠ SDnostatus := by
  show (if _ then _ else _ : Int × Fake).1 ≠ SDnostatus
  split
  · exact check_status _ _ _ _
  rename_i hlun
  split
  · exact ok_ne _ _ _ _
  split
  · exact ok_ne _ _ _ _
  split
  · exact ok_ne _ _ _ _
  rename_i hinq
  split
  · exact ok_ne _ _ _ _
  split
  · exact capacity_status _ _
  split
  · exact capacity_status _ _
  split
  · exact modesense_status _ _ _ _
  split
  · rename_i hio
    refine absurd hio ?_
    rcases h with h | ⟨h28, h2A, h88, h8a⟩
    · exact absurd ⟨h, hinq⟩ hlun
    · rintro (hio | hio | hio | hio)
      · exact h28 hio
      · exact h2A hio
      · exact h88 hio
      · exact h8a hio
  · exact check_status _ _ _ _

/-- The request that `sdrio` gives to the driver. -/
def raw (r : SDreq) (malloc : Option Nat) (n : Int) : SDreq :=
  { r with data := if n ≠ 0 then malloc else none, dlen := n }

/-- What `sdrio` copies back for an emulated command. -/
theorem sdrio_inside (io : Fake → Int × Fake) (unit : SDunit) (info : Nat → UInt8) {ilen : Int}
    (h0 : 0 ≤ ilen) (hlt : ilen < 2147483648) (malloc : Option Nat) (n : Int)
    (hemul : emulated r.cmd) :
    (∀ k ∈ sdrio (rio io unit info ilen) malloc r n, k ≤ n) ↔
      ¬ (r.write = false ∧ malloc ≠ none ∧ LongCapacity (raw r malloc n)) := by
  have hstatus := emulated_status (r := raw r malloc n) unit info ilen hemul
  have hkeeps := sdfakescsi_keeps (raw r malloc n) unit info ilen
  have hrio : rio io unit info ilen (raw r malloc n) =
      ((sdfakescsi (raw r malloc n) unit info ilen).1,
        { (sdfakescsi (raw r malloc n) unit info ilen).2 with
          r := { (sdfakescsi (raw r malloc n) unit info ilen).2.r with
            status := (sdfakescsi (raw r malloc n) unit info ilen).1 } }) := if_pos hstatus
  unfold sdrio
  split
  · rename_i hbig
    refine iff_of_true (fun k hk => by cases hk) fun ⟨_, _, hlong⟩ => ?_
    have h8 : 8 ≤ n := hlong.2.2.2.2.2.1
    have h12 : n < 12 := hlong.2.2.2.2.2.2
    unfold SDmaxio at hbig
    omega
  rename_i hsize
  split
  · rename_i hmem
    exact iff_of_true (fun k hk => by cases hk) fun ⟨_, hne, _⟩ => hne hmem.2
  rename_i hmem
  have hready : (raw r malloc n).Ready := by
    refine ⟨by show 0 ≤ n; omega, ?_⟩
    show (if n ≠ 0 then malloc else none) = none ↔ n = 0
    by_cases hn : n = 0
    · rw [if_neg (not_not.mpr hn)]
      exact iff_of_true rfl hn
    · rw [if_pos hn]
      exact iff_of_false (fun he => hmem ⟨hn, he⟩) hn
  have hcall : (if (rio io unit info ilen (raw r malloc n)).1 ≠ SDok then none
      else if (!(rio io unit info ilen (raw r malloc n)).2.r.write) = true ∧
          (rio io unit info ilen (raw r malloc n)).2.r.rlen > 0 then
        some (rio io unit info ilen (raw r malloc n)).2.r.rlen
      else some 0) =
      (if (sdfakescsi (raw r malloc n) unit info ilen).1 ≠ SDok then none
      else if (!(sdfakescsi (raw r malloc n) unit info ilen).2.r.write) = true ∧
          (sdfakescsi (raw r malloc n) unit info ilen).2.r.rlen > 0 then
        some (sdfakescsi (raw r malloc n) unit info ilen).2.r.rlen
      else some 0) := by
    rw [hrio]
  show (∀ k ∈ (if (rio io unit info ilen (raw r malloc n)).1 ≠ SDok then none
      else if (!(rio io unit info ilen (raw r malloc n)).2.r.write) = true ∧
          (rio io unit info ilen (raw r malloc n)).2.r.rlen > 0 then
        some (rio io unit info ilen (raw r malloc n)).2.r.rlen
      else some 0 : Option Int), k ≤ n) ↔ _
  rw [hcall]
  have hwrite : (sdfakescsi (raw r malloc n) unit info ilen).2.r.write = r.write := hkeeps.write
  constructor
  · rintro hle ⟨hw, -, hlong⟩
    obtain ⟨hok, hrlen⟩ := sdfakescsi_long hready unit info ilen hlong
    rw [if_neg (not_not.mpr hok)] at hle
    have h12 : n < 12 := hlong.2.2.2.2.2.2
    rw [hwrite, hw, hrlen, if_pos ⟨rfl, by decide⟩] at hle
    have := hle 12 rfl
    omega
  · intro hnot k hk
    split at hk
    · cases hk
    split at hk
    · rename_i hcopy
      obtain ⟨hw, hpos⟩ := hcopy
      obtain rfl := (Option.some.inj hk).symm
      refine (rlen_le hready unit info h0 hlt).mpr fun hlong => hnot ⟨?_, fun hnone => ?_, hlong⟩
      · rw [← hwrite]
        simpa using hw
      · have h8 : 8 ≤ n := hlong.2.2.2.2.2.1
        exact hmem ⟨by omega, hnone⟩
    · obtain rfl := (Option.some.inj hk).symm
      omega

/-- Which requests are emulated inside their buffers: not a long read capacity with a buffer of 8
bytes to 11, nor a mode sense with a block so large that its size overflows. The first one makes
`sdrio` copy back more than it was asked for, if it is no write. -/
theorem scsi_inside (unit : SDunit) (info : Nat → UInt8) {ilen : Int} (h0 : 0 ≤ ilen)
    (hlt : ilen < 2147483648) :
    (∀ r : SDreq, r.Ready →
      ((sdfakescsi r unit info ilen).2.Inside ↔ ¬ LongCapacity r ∧ ¬ WideSense r ilen)) ∧
    (∀ (x : Fake) (cmd : Nat → UInt8), x.Inside → x.r.Ready →
      ((sdmodesense x cmd info ilen).2.Inside ↔ ¬ WideInfo x.r cmd ilen)) ∧
    ∀ (io : Fake → Int × Fake) (malloc : Option Nat) (r : SDreq) (n : Int), emulated r.cmd →
      ((∀ k ∈ sdrio (rio io unit info ilen) malloc r n, k ≤ n) ↔
        ¬ (r.write = false ∧ malloc ≠ none ∧ LongCapacity (raw r malloc n))) :=
  ⟨fun _ hr => sdfakescsi_inside hr unit info h0 hlt,
    fun _ cmd hx hr => modesense_inside hx hr cmd info h0 hlt,
    fun io malloc _ n hemul => sdrio_inside io unit info h0 hlt malloc n hemul⟩

/-- A request for eight bytes. -/
private def eight (cmd0 : UInt8) : SDreq where
  write := false
  cmd i := if i = 0 then cmd0 else 0
  data := some 4096
  dlen := 8
  nosense := false
  validsense := false
  status := 0
  rlen := 0
  sense _ := 0

private def disk : SDunit := ⟨fun _ => 0, fun _ => 0, 1000⟩

theorem eight_ready (cmd0 : UInt8) : (eight cmd0).Ready :=
  ⟨show (0 : Int) ≤ 8 by decide,
    iff_of_false (fun h => by cases h) (show ¬ (8 : Int) = 0 by decide)⟩

/-- A read capacity with a buffer of eight bytes. -/
theorem scsi_inside_capacity : (sdfakescsi (eight 0x25) disk (fun _ => 0) 0).2.Inside := by
  refine ((scsi_inside disk (fun _ => 0) (by decide) (by decide)).1 _ (eight_ready 0x25)).mpr
    ⟨fun h => ?_, fun h => ?_⟩
  · exact absurd h.1 (by decide)
  · exact absurd h.1 (by decide)

/-- A long read capacity with a buffer of eight bytes stores twelve. -/
theorem scsi_outside : ¬ (sdfakescsi (eight 0x9E) disk (fun _ => 0) 0).2.Inside :=
  fun h => absurd h.le (by decide)

end NixMark.Scsi
