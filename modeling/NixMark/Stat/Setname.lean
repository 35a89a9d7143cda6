import NixMark.Lib.Window
import NixMark.Lib.Words
import NixMark.Stat.Entry

/-!
# The name in a directory entry (`port/chan.c`)

`dirsetname` puts another name into an entry: what is behind the name moves, and the two counts are
written.

* `GBIT16`, `PBIT16`, `dirname`, `dirsetname`, on the memory that holds the entry.
* `Renames`: what it is for. The size that is needed has 16 bits; `renames_of_fits`: up to there it
  does that, whatever the two names and the room are. `not_renames`: beyond it does not.
-/

namespace NixMark.Stat

open Lib

/-! ## The code -/

def GBIT16 (m : Nat → UInt8) (p : Nat) : Nat := (m p).toNat + 256 * (m (p + 1)).toNat

/-- The bytes that `PBIT16` writes. -/
def bytes16 (v : Int) : List UInt8 :=
  [UInt8.ofNat (v % 256).toNat, UInt8.ofNat (v / 256 % 256).toNat]

def PBIT16 (m : Nat → UInt8) (p : Nat) (v : Int) : Nat → UInt8 := store m p (bytes16 v)

/-- `dirname`: where the name is, and how long. -/
def dirname (m : Nat → UInt8) (p : Nat) : Nat × Nat :=
  (p + NAMEOFF + BIT16SZ, GBIT16 m (p + NAMEOFF))

/-- `dirsetname`: what it returns, and the memory. -/
def dirsetname (name : List UInt8) (m : Nat → UInt8) (p : Nat) (n maxn : Int) :
    Int × (Nat → UInt8) :=
  if n = BIT16SZ then (BIT16SZ, m)
  else
    let len := name.length
    let (oname, olen) := dirname m p
    let nn := long (n + len - olen)
    let m := PBIT16 m p (nn - BIT16SZ)
    if maxn < nn then (BIT16SZ, m)
    else
      let m := if len ≠ olen then
          memmove m (oname + len) (oname + olen) (p + n - (oname + olen)).toNat
        else m
      let m := PBIT16 m (oname - 2) len
      (nn, store m oname name)

/-! ## What it is for -/

/-- The size of the entry with another name. -/
def needed (d : Dir) (n : Nat) (name : List UInt8) : Nat := n - d.name.length + name.length

/-- The entry `d` of `n` bytes at `p` has the new name afterwards, when there is room for it, and only
the `maxn` bytes have changed. Otherwise the size that it would have is where its size was. -/
def Renames (name : List UInt8) (m : Nat → UInt8) (p n maxn : Nat) (d : Dir) : Prop :=
  (∀ a, a < p ∨ p + maxn ≤ a → (dirsetname name m p n maxn).2 a = m a) ∧
  if needed d n name ≤ maxn then
    (dirsetname name m p n maxn).1 = needed d n name ∧
      decode (window (dirsetname name m p n maxn).2 p (needed d n name)) = some { d with name := name }
  else
    (dirsetname name m p n maxn).1 = BIT16SZ ∧
      GBIT16 (dirsetname name m p n maxn).2 p + BIT16SZ = needed d n name

/-! ## The memory -/

variable {m : Nat → UInt8} {p n maxn : Nat} {v w : Int} {d : Dir} {name : List UInt8}

theorem number_bytes16 (v : Int) : number (bytes16 v) = (v % 65536).toNat := by
  have hlo : (UInt8.ofNat (v % 256).toNat).toNat = (v % 256).toNat := by
    rw [UInt8.toNat_ofNat']
    omega
  have hhi : (UInt8.ofNat (v / 256 % 256).toNat).toNat = (v / 256 % 256).toNat := by
    rw [UInt8.toNat_ofNat']
    omega
  rw [bytes16, number_pair, hlo, hhi]
  omega

theorem PBIT16_frame {x : Nat} (h : x < p ∨ p + 2 ≤ x) : PBIT16 m p v x = m x := store_frame h

theorem window_PBIT16 (m : Nat → UInt8) (p : Nat) (v : Int) :
    window (PBIT16 m p v) p 2 = bytes16 v :=
  window_store m p (bytes16 v)

theorem GBIT16_eq (m : Nat → UInt8) (p : Nat) : GBIT16 m p = number (window m p 2) := rfl

/-- The parts of the entry that `dirsetname` needs. -/
structure Parts (m : Nat → UInt8) (p n : Nat) (d : Dir) (fixed rest : List UInt8) : Prop where
  front : window m (p + 2) 39 = fixed
  count : GBIT16 m (p + 41) = d.name.length
  behind : window m (p + 43 + d.name.length) rest.length = rest
  size : n = 43 + d.name.length + rest.length

theorem parts_of_decode (h : decode (window m p n) = some d) : ∃ fixed rest own,
    Parts m p n d fixed rest ∧ owners rest = some own ∧ d = .ofFixed fixed d.name own := by
  obtain ⟨a, b, lo, hi, fixed, rest, own, hbs, hf, hn, hown, hd⟩ := decode_some h
  have hfl : fixed.length = 39 := Nat.add_right_cancel hf
  have hlen := congrArg List.length hbs
  simp only [window_length, List.length_cons, List.length_append] at hlen
  have hsize : n = 43 + d.name.length + rest.length := by omega
  refine ⟨fixed, rest, own, ⟨?_, ?_, ?_, hsize⟩, hown, hd⟩
  · have hw := window_drop (m := m) (a := p) (k := 2) (n := n) (by omega)
    rw [hbs] at hw
    have ht := congrArg (List.take 39) hw
    rw [window_take (by omega)] at ht
    rw [← ht]
    exact List.take_left' hfl
  · have hw := window_drop (m := m) (a := p) (k := 41) (n := n) (by omega)
    rw [hbs] at hw
    have ht := congrArg (List.take 2) hw
    rw [window_take (by omega)] at ht
    have hdrop : (a :: b :: (fixed ++ lo :: hi :: (d.name ++ rest))).drop 41 =
        lo :: hi :: (d.name ++ rest) := by
      rw [← List.cons_append, ← List.cons_append]
      exact List.drop_left' hf
    rw [GBIT16_eq, ← ht, hdrop]
    exact hn
  · have hw := window_drop (m := m) (a := p) (k := 43 + d.name.length) (n := n) (by omega)
    have hdrop : (a :: b :: (fixed ++ lo :: hi :: (d.name ++ rest))).drop (43 + d.name.length) =
        rest := by
      rw [show a :: b :: (fixed ++ lo :: hi :: (d.name ++ rest)) =
        (a :: b :: (fixed ++ lo :: hi :: d.name)) ++ rest by simp]
      refine List.drop_left' ?_
      simp only [List.length_cons, List.length_append]
      omega
    rw [hbs, hdrop, show n - (43 + d.name.length) = rest.length by omega] at hw
    rw [Nat.add_assoc]
    exact hw.symm

variable {fixed rest : List UInt8}

/-- What is behind the name moves as one piece, also where it overlaps with itself. -/
theorem window_renamed {k : Nat} (hfixed : window m (p + 2) 39 = fixed)
    (hrest : window m (p + 43 + k) rest.length = rest) :
    window (store (PBIT16 (if name.length ≠ k then
          memmove (PBIT16 m p v) (p + 43 + name.length) (p + 43 + k) rest.length
        else PBIT16 m p v) (p + 41) w) (p + 43) name) p (43 + name.length + rest.length) =
      bytes16 v ++ (fixed ++ (bytes16 w ++ (name ++ rest))) := by
  generalize hm' : (if name.length ≠ k then
    memmove (PBIT16 m p v) (p + 43 + name.length) (p + 43 + k) rest.length
    else PBIT16 m p v) = m'
  have hlow : ∀ x < p + 43, m' x = PBIT16 m p v x := by
    intro x hx
    rw [← hm']
    split
    · exact memmove_frame (by omega)
    · rfl
  have hbehind : window m' (p + 43 + name.length) rest.length = rest := by
    have hkeep : window (PBIT16 m p v) (p + 43 + k) rest.length = rest :=
      (window_frame fun x hx _ => PBIT16_frame (by omega)).trans hrest
    rw [← hm']
    split
    · rw [window_memmove, hkeep]
    · rename_i h
      rw [not_not.mp h, hkeep]
  rw [show 43 + name.length + rest.length = 2 + (39 + (2 + (name.length + rest.length))) by omega,
    window_add, window_add, window_add, window_add]
  congr 1
  · rw [← window_PBIT16 m p v]
    refine window_frame fun x _ hx => ?_
    rw [store_frame (by omega), PBIT16_frame (by omega), hlow x (by omega)]
  congr 1
  · rw [← hfixed]
    refine window_frame fun x hx hx' => ?_
    rw [store_frame (by omega), PBIT16_frame (by omega), hlow x (by omega), PBIT16_frame (by omega)]
  congr 1
  · rw [← window_PBIT16 m' (p + 41) w]
    exact window_frame fun x _ hx => store_frame (by omega)
  congr 1
  · exact window_store _ _ _
  · refine Eq.trans (window_frame fun x hx _ => ?_) hbehind
    rw [store_frame (by omega), PBIT16_frame (by omega)]

/-! ## The name -/

theorem Parts.needed_eq (hp : Parts m p n d fixed rest) (name : List UInt8) :
    needed d n name = 43 + name.length + rest.length := by
  have hsize := hp.size
  unfold needed
  omega

/-- The size that `dirsetname` finds is a `long`. -/
theorem dirsetname_eq (hp : Parts m p n d fixed rest) (maxn : Int) :
    dirsetname name m p n maxn =
      if maxn < long (needed d n name) then
        ((BIT16SZ : Int), PBIT16 m p (long (needed d n name) - BIT16SZ))
      else
        (long (needed d n name),
          store (PBIT16 (if name.length ≠ d.name.length then
              memmove (PBIT16 m p (long (needed d n name) - BIT16SZ)) (p + 43 + name.length)
                (p + 43 + d.name.length) rest.length
            else PBIT16 m p (long (needed d n name) - BIT16SZ)) (p + 41) name.length)
            (p + 43) name) := by
  have hsize := hp.size
  have hne : (n : Int) ≠ BIT16SZ := by
    rw [BIT16SZ]
    omega
  have hnn : (n : Int) + name.length - d.name.length = needed d n name := by
    rw [hp.needed_eq]
    omega
  have hmove : ((p : Int) + n - (((p + 43 : Nat) : Int) + d.name.length)).toNat = rest.length := by
    omega
  unfold dirsetname dirname
  rw [if_neg hne]
  simp only [NAMEOFF, hp.count, hnn]
  rw [show p + 41 + BIT16SZ = p + 43 from rfl, hmove, show p + 43 - 2 = p + 41 from rfl]

/-- With a size of 16 bits the entry gets its name, when there is room. -/
theorem renames_of_fits (h : decode (window m p n) = some d) (hn : n ≤ maxn)
    (hfit : needed d n name < 65536 + BIT16SZ) : Renames name m p n maxn d := by
  obtain ⟨fixed, rest, own, hp, hown, hd⟩ := parts_of_decode h
  have hsize := hp.size
  have hneed := hp.needed_eq name
  have hlong : long (needed d n name) = needed d n name := by
    rw [BIT16SZ] at hfit
    exact long_eq (by omega) (by omega)
  unfold Renames
  rw [dirsetname_eq hp, hlong]
  by_cases hroom : needed d n name ≤ maxn
  · rw [if_pos hroom, if_neg (by omega)]
    refine ⟨fun a ha => ?_, rfl, ?_⟩
    · dsimp only
      rw [store_frame (by omega), PBIT16_frame (by omega)]
      split
      · rw [memmove_frame (by omega), PBIT16_frame (by omega)]
      · rw [PBIT16_frame (by omega)]
    · have hfixed : fixed.length + BIT16SZ = NAMEOFF := by
        rw [← hp.front, window_length]
        rfl
      have hcount : number (bytes16 name.length) = name.length := by
        rw [number_bytes16]
        rw [BIT16SZ] at hfit
        omega
      dsimp only
      rw [hneed, window_renamed hp.front hp.behind]
      refine (decode_eq hfixed hcount).trans ?_
      rw [if_pos, hown, hd]
      · rfl
      · rw [← bytes16, number_bytes16, NAMEOFF]
        simp only [BIT16SZ] at hfit ⊢
        omega
  · rw [if_neg hroom, if_pos (by omega)]
    refine ⟨fun a ha => PBIT16_frame (by omega), rfl, ?_⟩
    rw [GBIT16_eq, window_PBIT16, number_bytes16]
    simp only [BIT16SZ] at hfit ⊢
    omega

/-- No entry says that it has more. -/
theorem not_renames (hbig : 65536 + BIT16SZ ≤ needed d n name) : ¬ Renames name m p n maxn d := by
  rintro ⟨-, hr⟩
  split at hr
  · have hlt := length_of_decode hr.2
    rw [window_length] at hlt
    omega
  · have hlt : GBIT16 (dirsetname name m p n maxn).2 p < 65536 := number_pair_lt _ _
    omega

/-- An entry of 49 bytes, with four empty strings. -/
private def bare : Nat → UInt8 := store (fun _ => 0) 0 [47]

theorem decode_bare :
    decode (window bare 0 49) = some ⟨0, 0, ⟨0, 0, 0⟩, 0, 0, 0, 0, [], [], [], []⟩ := by
  decide

/-- A name that grows. -/
theorem renames_of_fits_bare :
    Renames [110, 105, 120] bare 0 49 64 ⟨0, 0, ⟨0, 0, 0⟩, 0, 0, 0, 0, [], [], [], []⟩ :=
  renames_of_fits decode_bare (by decide) (by decide)

/-- A name of 65535 bytes, with room for it. -/
theorem dirsetname_truncates :
    ¬ ∀ (name : List UInt8) (m : Nat → UInt8) (p n maxn : Nat) (d : Dir),
      decode (window m p n) = some d → n ≤ maxn → Renames name m p n maxn d := by
  intro h
  have hr := h (List.replicate 65535 0) bare 0 49 70000 _ decode_bare (by decide)
  refine not_renames ?_ hr
  rw [needed, List.length_replicate]
  decide

end NixMark.Stat
