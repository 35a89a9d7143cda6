import Mathlib.Algebra.Order.Ring.Int
import NixMark.Lib.Words

/-!
# The header of an executable (`port/sysproc.c`, `sysexec`)

The words of the header are big-endian; a `long` has 32 bits and a `uintptr` 64. What is read of the
file is the header of a program: `#!` has been dealt with. `AOUT_MAGIC` and `HDR_MAGIC` are of
`a.out.h` and parameters.

* `l2be`, `vl2be`: a word of the header, as the source puts it together.
* `ROUNDUP`, `UROUNDUP`: the macro on a `long` and on a `uintptr`.
* `sysexec`: the header, up to the checks.
* `Sound`: what holds of an image that passes them; `sysexec_sound`.
-/

namespace NixMark.Exec

open Lib

/-- The value that an integer has in a `uintptr`. -/
def uintptr (x : Int) : Int := x % 18446744073709551616

def UTZERO : Int := 2097152
def UPGSZ : Int := 16384
def MiB2 : Int := 2097152
def USTKTOP : Int := 0x00007ffffffff000 / UPGSZ * UPGSZ

/-! ## Words -/

/-- The bytes of a `long` in memory. -/
structure Long where
  p0 : UInt8
  p1 : UInt8
  p2 : UInt8
  p3 : UInt8

/-- The bytes of a header: a `Long` for each field of an `Exec`, and the two halves of `hdr[0]`. -/
structure Hdr where
  magic : Long
  text : Long
  data : Long
  bss : Long
  entry : Long
  hdrhi : Long
  hdrlo : Long

namespace Long

/-- The expression `(p[0]<<24)|(p[1]<<16)|(p[2]<<8)|p[3]`, as a number of 32 bits. -/
def shifts (p : Long) : Nat :=
  p.p0.toNat <<< 24 ||| p.p1.toNat <<< 16 ||| p.p2.toNat <<< 8 ||| p.p3.toNat

/-- The number that the bytes stand for. -/
def value (p : Long) : Int :=
  p.p0.toNat * 16777216 + p.p1.toNat * 65536 + p.p2.toNat * 256 + p.p3.toNat

end Long

/-- `l2be`, a `ulong` -/
def l2be (p : Long) : Int := p.shifts

/-- `vl2be`. A shift of a byte is an `int`, whose sign goes into the `uvlong`. -/
def vl2be (hi lo : Long) : Int :=
  let high := uintptr (uintptr (long hi.shifts) * 4294967296)
  let low := (uintptr (long ↑(lo.p0.toNat <<< 24))).toNat ||| lo.p1.toNat <<< 16 |||
    lo.p2.toNat <<< 8 ||| lo.p3.toNat
  (high.toNat ||| low : Nat)

/-! ## The checks -/

/-- `ROUNDUP(x, y)` of a `long`; a quotient is cut towards 0. -/
def ROUNDUP (x y : Int) : Int := long (long (Int.tdiv (long (x + (y - 1))) y) * y)

/-- `ROUNDUP(x, y)` of a `uintptr` -/
def UROUNDUP (x y : Int) : Int := uintptr (uintptr (x + (y - 1)) / y * y)

/-- What `sysexec` knows of a program. -/
structure Image where
  hdrsz : Int
  entry : Int
  textsz : Int
  datasz : Int
  bsssz : Int
  textmin : Int
  textlim : Int
  datalim : Int
  bsslim : Int

/-- The numbers that are computed from a header; `wide` is `magic & HDR_MAGIC`. -/
def Hdr.image (h : Hdr) (wide : Bool) : Image :=
  let hdrsz := if wide then 40 else 32
  let textsz := long (l2be h.text)
  let datasz := long (l2be h.data)
  let bsssz := long (l2be h.bss)
  let textmin := uintptr (ROUNDUP (long (long (UTZERO + hdrsz) + textsz)) UPGSZ)
  let textlim := UROUNDUP textmin MiB2
  { hdrsz := hdrsz
    entry := if wide then vl2be h.hdrhi h.hdrlo else uintptr (l2be h.entry)
    textsz := textsz
    datasz := datasz
    bsssz := bsssz
    textmin := textmin
    textlim := textlim
    datalim := UROUNDUP (uintptr (textlim + datasz)) UPGSZ
    bsslim := UROUNDUP (uintptr (uintptr (textlim + datasz) + bsssz)) UPGSZ }

/-- The entry point is not in the text. -/
def Image.stray (x : Image) : Bool :=
  x.entry < uintptr (long (UTZERO + x.hdrsz)) ||
    x.entry ≥ uintptr (long (long (UTZERO + x.hdrsz) + x.textsz))

/-- The segments are too large, or they overlap. -/
def Image.overlaps (x : Image) : Bool :=
  uintptr x.textsz ≥ x.textlim || uintptr x.datasz > x.datalim || uintptr x.bsssz > x.bsslim ||
    x.textlim ≥ USTKTOP || x.datalim ≥ USTKTOP || x.bsslim ≥ USTKTOP ||
    x.datalim < x.textlim || x.bsslim < x.datalim

/-- `sysexec` up to the checks, for a header of which `n` bytes were read: `none` is `Ebadexec`. -/
def sysexec (AOUT_MAGIC HDR_MAGIC : Nat) (n : Int) (h : Hdr) : Option Image :=
  if n ≠ 40 ∨ long (l2be h.magic) ≠ long AOUT_MAGIC then none
  else
    let x := h.image ((l2be h.magic).toNat &&& HDR_MAGIC ≠ 0)
    if x.stray || x.overlaps then none else some x

/-! ## Statements -/

/-- The numbers of a header, without wrapping: sizes that are not negative, the entry point in the
text, and segments one above the other that hold what they should. -/
structure Sound (h : Hdr) (x : Image) : Prop where
  textsz : 0 ≤ x.textsz ∧ x.textsz = h.text.value
  datasz : 0 ≤ x.datasz ∧ x.datasz = h.data.value
  bsssz : 0 ≤ x.bsssz ∧ x.bsssz = h.bss.value
  hdrsz : x.hdrsz = 40 ∨ x.hdrsz = 32
  read : x.entry =
    if x.hdrsz = 40 then h.hdrhi.value * 4294967296 + h.hdrlo.value else h.entry.value
  entry : UTZERO + x.hdrsz ≤ x.entry ∧ x.entry < UTZERO + x.hdrsz + x.textsz
  text : UTZERO + x.hdrsz + x.textsz ≤ x.textmin
  above : x.textmin ≤ x.textlim
  data : x.textlim + x.datasz + x.bsssz ≤ x.bsslim
  below : x.bsslim < USTKTOP

/-! ## Words -/

namespace Long

variable (p : Long)

theorem range : 0 ≤ p.value ∧ p.value < 4294967296 := by
  have h0 := p.p0.toNat_lt
  have h1 := p.p1.toNat_lt
  have h2 := p.p2.toNat_lt
  have h3 := p.p3.toNat_lt
  unfold value
  omega

/-- A number below a power of two goes beside a multiple of it. -/
theorem or_place {a b k : Nat} (i : Nat) (ha : a = 2 ^ i * k) (hb : b < 2 ^ i) : a ||| b = a + b := by
  subst ha
  exact (Nat.two_pow_add_eq_or_of_lt hb k).symm

/-- Bytes that are shifted to places of their own are added up. -/
theorem shifts_eq : (p.shifts : Int) = p.value := by
  have h1 := p.p1.toNat_lt
  have h2 := p.p2.toNat_lt
  have h3 := p.p3.toNat_lt
  have e1 : p.p0.toNat * 2 ^ 24 ||| p.p1.toNat * 2 ^ 16 =
      p.p0.toNat * 2 ^ 24 + p.p1.toNat * 2 ^ 16 := or_place 24 (Nat.mul_comm ..) (by omega)
  have e2 : (p.p0.toNat * 2 ^ 24 + p.p1.toNat * 2 ^ 16) ||| p.p2.toNat * 2 ^ 8 =
      p.p0.toNat * 2 ^ 24 + p.p1.toNat * 2 ^ 16 + p.p2.toNat * 2 ^ 8 :=
    or_place 16 (k := p.p0.toNat * 256 + p.p1.toNat) (by omega) (by omega)
  have e3 : (p.p0.toNat * 2 ^ 24 + p.p1.toNat * 2 ^ 16 + p.p2.toNat * 2 ^ 8) ||| p.p3.toNat =
      p.p0.toNat * 2 ^ 24 + p.p1.toNat * 2 ^ 16 + p.p2.toNat * 2 ^ 8 + p.p3.toNat :=
    or_place 8 (k := p.p0.toNat * 65536 + p.p1.toNat * 256 + p.p2.toNat) (by omega) (by omega)
  unfold shifts value
  simp only [Nat.shiftLeft_eq]
  rw [e1, e2, e3]
  omega

end Long

/-- The two halves are put together, but for the sign of the fifth byte. -/
theorem vl2be_spec (hi lo : Long) : vl2be hi lo = hi.value * 4294967296 + lo.value ∨
    18446744071562067968 ≤ vl2be hi lo := by
  have hhi := hi.range
  have hlo := lo.range
  have h0 := lo.p0.toNat_lt
  have hshift : lo.p0.toNat <<< 24 = lo.p0.toNat * 16777216 := Nat.shiftLeft_eq ..
  have hhigh : uintptr (uintptr (long hi.shifts) * 4294967296) = hi.value * 4294967296 := by
    rw [hi.shifts_eq]
    unfold uintptr long
    omega
  by_cases hsign : lo.p0.toNat < 128
  · left
    have hlow : uintptr (long ↑(lo.p0.toNat <<< 24)) = ↑(lo.p0.toNat <<< 24) := by
      rw [hshift, long_eq (by omega) (by omega)]
      unfold uintptr
      omega
    have hs := lo.shifts_eq
    unfold Long.shifts at hs
    unfold vl2be
    simp only [hhigh, hlow, Int.toNat_natCast]
    generalize lo.p0.toNat <<< 24 ||| lo.p1.toNat <<< 16 ||| lo.p2.toNat <<< 8 ||| lo.p3.toNat = low at hs
    rw [Long.or_place 32 (k := hi.value.toNat) (by omega) (by omega)]
    omega
  · right
    have hlow : (uintptr (long ↑(lo.p0.toNat <<< 24))).toNat ≥ 18446744071562067968 := by
      rw [hshift]
      unfold uintptr long
      omega
    unfold vl2be
    have := Nat.le_trans hlow (Nat.left_le_or (m := lo.p1.toNat <<< 16))
    have := Nat.le_trans this (Nat.left_le_or (m := lo.p2.toNat <<< 8))
    have := Nat.le_trans this (Nat.left_le_or (m := lo.p3.toNat))
    have := Nat.le_trans this (Nat.right_le_or
      (n := (uintptr (uintptr (long hi.shifts) * 4294967296)).toNat))
    dsimp only
    omega

/-! ## Rounding -/

/-- A quotient is cut towards 0. -/
theorem tdiv_upgsz (x : Int) : Int.tdiv x UPGSZ = if 0 ≤ x then x / 16384 else -(-x / 16384) := by
  unfold UPGSZ
  split
  · next hx => exact Int.tdiv_eq_ediv_of_nonneg hx
  · next hx =>
    rw [← Int.tdiv_eq_ediv_of_nonneg (by omega), Int.neg_tdiv, Int.neg_neg]

/-- `ROUNDUP` of a `long`. Below 0, and near the end of the range, the result is not positive. -/
theorem ROUNDUP_spec {x : Int} (hx : -2147483648 ≤ x) (hx' : x < 2147483648) :
    (0 ≤ x ∧ x ≤ ROUNDUP x UPGSZ ∧ ROUNDUP x UPGSZ < x + 16384) ∨
      (x < 0 ∨ 2147467264 < x) ∧ -2147483648 ≤ ROUNDUP x UPGSZ ∧ ROUNDUP x UPGSZ ≤ 0 := by
  have hround (y : Int) (hy : -2147483648 ≤ y) (hy' : y < 2147483648) :
      long (long (Int.tdiv y UPGSZ) * UPGSZ) = Int.tdiv y UPGSZ * 16384 := by
    have hq : -131072 ≤ Int.tdiv y UPGSZ ∧ Int.tdiv y UPGSZ < 131072 := by
      rw [tdiv_upgsz]
      split <;> omega
    rw [long_eq (x := Int.tdiv y UPGSZ) (by omega) (by omega)]
    exact long_eq (by unfold UPGSZ at *; omega) (by unfold UPGSZ at *; omega)
  have hlong := long_range (x + (UPGSZ - 1))
  unfold ROUNDUP
  rw [hround _ hlong.1 hlong.2, tdiv_upgsz]
  have hwrap : long (x + (UPGSZ - 1)) = x + 16383 ∧ x ≤ 2147467264 ∨
      long (x + (UPGSZ - 1)) = x + 16383 - 4294967296 ∧ 2147467264 < x := by
    unfold long UPGSZ
    omega
  generalize long (x + (UPGSZ - 1)) = y at hlong hwrap
  split <;> omega

theorem uintptr_eq {x : Int} (h0 : 0 ≤ x) (h1 : x < 18446744073709551616) : uintptr x = x :=
  Int.emod_eq_of_lt h0 h1

/-- `ROUNDUP` of a `uintptr` that does not wrap. -/
theorem UROUNDUP_spec {x y : Int} (hy : 0 < y) (hx : 0 ≤ x) (h : x + y ≤ 18446744073709551616) :
    x ≤ UROUNDUP x y ∧ UROUNDUP x y < x + y := by
  have hdiv := Int.ediv_mul_add_emod (x + (y - 1)) y
  have h0 := Int.emod_nonneg (x + (y - 1)) (Int.ne_of_gt hy)
  have h1 := Int.emod_lt_of_pos (x + (y - 1)) hy
  have hsum : uintptr (x + (y - 1)) = x + (y - 1) := uintptr_eq (by omega) (by omega)
  unfold UROUNDUP
  rw [hsum]
  generalize (x + (y - 1)) / y * y = z at hdiv
  rw [uintptr_eq (by omega) (by omega)]
  omega

/-! ## The checks -/

theorem l2be_long (p : Long) : long (l2be p) = p.value ∨ long (l2be p) < 0 := by
  have h := p.range
  unfold l2be
  rw [p.shifts_eq]
  unfold long
  omega

theorem size_value {p : Long} {size : Int} (hs : size = long (l2be p)) (h0 : 0 ≤ size) :
    size = p.value :=
  hs.trans ((l2be_long p).resolve_right (Int.not_lt.mpr (hs ▸ h0)))

theorem ustktop_eq : USTKTOP = 140737488338944 := by decide

/-- A text that passes the checks does not wrap. -/
theorem text_sound {hdrsz textsz entry : Int} (hh : hdrsz = 40 ∨ hdrsz = 32)
    (ht : -2147483648 ≤ textsz ∧ textsz < 2147483648)
    (hentry : UTZERO + hdrsz ≤ entry ∧ entry < uintptr (long (UTZERO + hdrsz + textsz)))
    (hlim : uintptr textsz <
      UROUNDUP (uintptr (ROUNDUP (long (UTZERO + hdrsz + textsz)) UPGSZ)) MiB2)
    (htop : UROUNDUP (uintptr (ROUNDUP (long (UTZERO + hdrsz + textsz)) UPGSZ)) MiB2 < USTKTOP) :
    0 ≤ textsz ∧ entry < UTZERO + hdrsz + textsz ∧
      UTZERO + hdrsz + textsz ≤ uintptr (ROUNDUP (long (UTZERO + hdrsz + textsz)) UPGSZ) ∧
      uintptr (ROUNDUP (long (UTZERO + hdrsz + textsz)) UPGSZ) ≤
        UROUNDUP (uintptr (ROUNDUP (long (UTZERO + hdrsz + textsz)) UPGSZ)) MiB2 := by
  have hz : UTZERO = 2097152 := rfl
  have hm : MiB2 = 2097152 := rfl
  rw [ustktop_eq] at htop
  have hsum : long (UTZERO + hdrsz + textsz) = UTZERO + hdrsz + textsz ∨
      2097152 + hdrsz + textsz ≥ 2147483648 ∧ long (UTZERO + hdrsz + textsz) < 0 := by
    unfold long
    omega
  have hrange := long_range (UTZERO + hdrsz + textsz)
  generalize long (UTZERO + hdrsz + textsz) = sum at *
  rcases ROUNDUP_spec hrange.1 hrange.2 with ⟨h0, hup, hlt⟩ | ⟨hbad, hlow, hneg⟩
  · generalize ROUNDUP sum UPGSZ = textmin at *
    rw [uintptr_eq (x := textmin) (by omega) (by omega)] at hlim htop ⊢
    rw [uintptr_eq (x := sum) (by omega) (by omega)] at hentry
    have hmin := UROUNDUP_spec (x := textmin) (y := MiB2) (by decide) (by omega) (by omega)
    omega
  · exfalso
    generalize ROUNDUP sum UPGSZ = textmin at *
    by_cases hr : textmin = 0
    · -- the text would have to end below its beginning
      subst hr
      have h0 : uintptr 0 = 0 := rfl
      rw [h0] at hlim
      have hmin := UROUNDUP_spec (x := 0) (y := MiB2) (by decide) (by decide) (by decide)
      generalize UROUNDUP 0 MiB2 = textlim at hlim hmin
      unfold uintptr at hlim
      omega
    · have hu : uintptr textmin = textmin + 18446744073709551616 := by
        unfold uintptr
        omega
      rw [hu] at hlim htop
      by_cases hwrap : textmin ≤ -2097152
      · have hmin := UROUNDUP_spec (x := textmin + 18446744073709551616) (y := MiB2) (by decide)
          (by omega) (by omega)
        omega
      · have hzero : UROUNDUP (textmin + 18446744073709551616) MiB2 = 0 := by
          unfold UROUNDUP uintptr
          rw [hm]
          omega
        have hpos : 0 ≤ uintptr textsz := Int.emod_nonneg _ (by decide)
        omega

/-- A size that passes the checks is not negative. -/
theorem size_sound {size lim : Int} (hs : -2147483648 ≤ size) (hle : uintptr size ≤ lim)
    (htop : lim < USTKTOP) : 0 ≤ size := by
  rw [ustktop_eq] at htop
  unfold uintptr at hle
  omega

/-- Data and bss go up to where their segment ends. -/
theorem data_sound {textlim datasz bsssz : Int} (ht : 0 ≤ textlim ∧ textlim < USTKTOP)
    (hd : 0 ≤ datasz ∧ datasz < 2147483648) (hb : 0 ≤ bsssz ∧ bsssz < 2147483648) :
    textlim + datasz + bsssz ≤ UROUNDUP (uintptr (uintptr (textlim + datasz) + bsssz)) UPGSZ := by
  rw [ustktop_eq] at ht
  rw [uintptr_eq (x := textlim + datasz) (by omega) (by omega), uintptr_eq (by omega) (by omega)]
  exact (UROUNDUP_spec (by decide) (by omega) (by unfold UPGSZ; omega)).1

/-- An image that passes the checks. -/
theorem sound_of_checks {h : Hdr} {wide : Bool} (hs : (h.image wide).stray = false)
    (ho : (h.image wide).overlaps = false) : Sound h (h.image wide) := by
  have hhdr : (h.image wide).hdrsz = 40 ∨ (h.image wide).hdrsz = 32 := by
    cases wide
    · exact .inr rfl
    · exact .inl rfl
  have hbase : long (UTZERO + (h.image wide).hdrsz) = UTZERO + (h.image wide).hdrsz :=
    long_eq (by unfold UTZERO; omega) (by unfold UTZERO; omega)
  have htmin : (h.image wide).textmin =
      uintptr (ROUNDUP (long (UTZERO + (h.image wide).hdrsz + (h.image wide).textsz)) UPGSZ) := by
    rw [← hbase]
    rfl
  have htlim : (h.image wide).textlim = UROUNDUP (h.image wide).textmin MiB2 := rfl
  have hdlim : (h.image wide).datalim =
      UROUNDUP (uintptr ((h.image wide).textlim + (h.image wide).datasz)) UPGSZ := rfl
  have hblim : (h.image wide).bsslim = UROUNDUP (uintptr (uintptr ((h.image wide).textlim +
      (h.image wide).datasz) + (h.image wide).bsssz)) UPGSZ := rfl
  have htext : (h.image wide).textsz = long (l2be h.text) := rfl
  have hdata : (h.image wide).datasz = long (l2be h.data) := rfl
  have hbss : (h.image wide).bsssz = long (l2be h.bss) := rfl
  have hread : (h.image wide).entry = (if (h.image wide).hdrsz = 40 then
      h.hdrhi.value * 4294967296 + h.hdrlo.value else h.entry.value) ∨
      18446744071562067968 ≤ (h.image wide).entry := by
    cases wide with
    | true => exact vl2be_spec h.hdrhi h.hdrlo
    | false =>
      left
      have hr := h.entry.range
      show uintptr (l2be h.entry) = h.entry.value
      unfold l2be
      rw [h.entry.shifts_eq]
      exact uintptr_eq (by omega) (by omega)
  generalize h.image wide = x at *
  unfold Image.stray at hs
  unfold Image.overlaps at ho
  simp only [Bool.or_eq_false_iff, decide_eq_false_iff_not, Int.not_lt, Int.not_le, ge_iff_le,
    gt_iff_lt] at hs ho
  rw [hbase, uintptr_eq (by unfold UTZERO; omega) (by unfold UTZERO; omega)] at hs
  obtain ⟨⟨⟨⟨⟨⟨⟨ht, hd⟩, hb⟩, htop⟩, hdtop⟩, hbtop⟩, hdt⟩, hbd⟩ := ho
  have hz : UTZERO = 2097152 := rfl
  have htop' := ustktop_eq
  have htr : -2147483648 ≤ x.textsz ∧ x.textsz < 2147483648 := by
    rw [htext]
    exact long_range _
  have hdr : -2147483648 ≤ x.datasz ∧ x.datasz < 2147483648 := by
    rw [hdata]
    exact long_range _
  have hbr : -2147483648 ≤ x.bsssz ∧ x.bsssz < 2147483648 := by
    rw [hbss]
    exact long_range _
  rw [htlim, htmin] at ht htop
  obtain ⟨ht0, hentry, hmin, hlim⟩ := text_sound hhdr htr hs ht htop
  rw [← htmin] at hmin hlim htop
  rw [← htlim] at hlim htop
  have hd0 := size_sound hdr.1 hd hdtop
  have hb0 := size_sound hbr.1 hb hbtop
  have hbase0 : 0 ≤ UTZERO + x.hdrsz := by
    clear hread
    omega
  have hlim0 : 0 ≤ x.textlim := Int.le_trans (Int.le_trans (Int.add_nonneg hbase0 ht0) hmin) hlim
  have hbsum : x.textlim + x.datasz + x.bsssz ≤ x.bsslim := by
    rw [hblim]
    exact data_sound ⟨hlim0, htop⟩ ⟨hd0, hdr.2⟩ ⟨hb0, hbr.2⟩
  have hsmall : x.entry < 18446744071562067968 := by
    clear hread hdlim hblim htmin htlim
    omega
  exact {
    textsz := ⟨ht0, size_value htext ht0⟩
    datasz := ⟨hd0, size_value hdata hd0⟩
    bsssz := ⟨hb0, size_value hbss hb0⟩
    hdrsz := hhdr
    read := hread.resolve_right (Int.not_le.mpr hsmall)
    entry := ⟨hs.1, hentry⟩
    text := hmin
    above := hlim
    data := hbsum
    below := hbtop }

/-- A header that `sysexec` accepts is sound. -/
theorem sysexec_sound {AOUT_MAGIC HDR_MAGIC : Nat} {n : Int} {h : Hdr} {x : Image}
    (hx : sysexec AOUT_MAGIC HDR_MAGIC n h = some x) : Sound h x := by
  unfold sysexec at hx
  split at hx
  · cases hx
  · dsimp only at hx
    split at hx
    · cases hx
    · next hc =>
      cases hx
      rw [Bool.or_eq_true, not_or, Bool.not_eq_true, Bool.not_eq_true] at hc
      exact sound_of_checks hc.1 hc.2

/-- A program of a page of text and as much data. -/
private def program : Hdr where
  magic := ⟨0, 0, 0x8a, 0x97⟩
  text := ⟨0, 0, 0x40, 0⟩
  data := ⟨0, 0, 0x40, 0⟩
  bss := ⟨0, 0, 0, 8⟩
  entry := ⟨0, 0x20, 0, 0x28⟩
  hdrhi := ⟨0, 0, 0, 0⟩
  hdrlo := ⟨0, 0x20, 0, 0x28⟩

theorem program_runs : sysexec 0x8a97 0x8000 40 program = some (program.image true) := by
  have hmagic : ¬((40 : Int) ≠ 40 ∨ long (l2be program.magic) ≠ long (0x8a97 : Nat)) := by decide
  have hwide : decide ((l2be program.magic).toNat &&& 0x8000 ≠ 0) = true := by decide
  have hchecks : ¬((program.image true).stray || (program.image true).overlaps) = true := by decide
  unfold sysexec
  rw [if_neg hmagic, hwide]
  exact if_neg hchecks

theorem sysexec_sound_program : Sound program (program.image true) :=
  sysexec_sound program_runs

end NixMark.Exec
