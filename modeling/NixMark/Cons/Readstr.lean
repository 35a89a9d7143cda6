import Mathlib.Algebra.Group.Nat.Defs
import Mathlib.Algebra.Ring.Int.Defs
import Mathlib.Data.Nat.Find
import NixMark.Lib.Words

/-!
# Reads of text files (`port/devcons.c`, `port/sysfile.c`, `ip/devip.c`)

A call of `readstr` or `readnum` copies from the kernel's memory to the process: `Copy` is where from
and how much. The value is a string in that memory, or the number that `readnum` formats on its
stack. A count is not negative.

* `Discreet`: a call copies bytes of the value only, and they are the same in every kernel that has
  the value.
* `readall`: reads of a channel one after another.
* `reads_exact`: when this holds.
-/

namespace NixMark.Cons

open Lib

/-- The value that an integer has in a `ulong`. -/
def ulong (x : Int) : Int := x % 4294967296

/-- A value in the kernel's memory. -/
structure View where
  mem : Int → UInt8
  base : Int
  len : Nat

/-- What a call copies to the process; `n` is the value it returns. -/
structure Copy where
  src : Int
  n : Int

/-- The `n` bytes from `a` on. -/
def window (mem : Int → UInt8) (a : Int) (n : Nat) : List UInt8 :=
  (List.range n).map fun i : Nat => mem (a + i)

namespace View

def value (w : View) : List UInt8 := window w.mem w.base w.len

/-- The bytes of a copy. -/
def copied (w : View) (c : Copy) : List UInt8 := window w.mem c.src c.n.toNat

end View

/-! ## Strings -/

/-- A string in the memory of a kernel. A `long` counts its bytes. -/
structure Text where
  mem : Int → UInt8
  str : Int
  ends : ∃ i : Nat, i < 2147483648 ∧ mem (str + i) = 0

namespace Text

def strlen (t : Text) : Nat := Nat.find t.ends

def view (t : Text) : View := { mem := t.mem, base := t.str, len := t.strlen }

def value (t : Text) : List UInt8 := t.view.value

end Text

/-- `readstr` -/
def readstr (offset n : Int) (t : Text) : Copy :=
  let size := long t.strlen
  if size ≤ offset then { src := t.str, n := 0 }
  else if size < long (offset + n) then { src := t.str + offset, n := long (size - offset) }
  else { src := t.str + offset, n := n }

/-- `ipread` of a file that is a string. -/
def ipread (t : Text) (n off : Int) : Copy :=
  let offset := ulong off
  readstr (long offset) n t

/-! ## Numbers -/

/-- The stack of the kernel, and where `tmp` is on it. -/
structure Frame where
  mem : Int → UInt8
  tmp : Int

/-- The format `%*lud` -/
def decimal (width val : Nat) : List UInt8 :=
  let digits := (Nat.toDigits 10 val).map fun c => UInt8.ofNat c.toNat
  List.replicate (width - digits.length) 32 ++ digits

/-- `snprint` of a text -/
def snprint (mem : Int → UInt8) (buf : Int) (len : Nat) (text : List UInt8) : Int → UInt8 := fun a =>
  if buf ≤ a ∧ a < buf + (text.take (len - 1)).length then text.getD (a - buf).toNat 0
  else if a = buf + (text.take (len - 1)).length then 0
  else mem a

/-- `tmp`, as `readnum` fills it. -/
def Frame.view (val size : Nat) (f : Frame) : View where
  mem a := if a = f.tmp + size - 1 then 32 else snprint f.mem f.tmp 64 (decimal (size - 1) val) a
  base := f.tmp
  len := size

/-- `readnum`; its arguments `off`, `n` are numbers of type `ulong`. -/
def readnum (off n : Int) (size : Nat) (f : Frame) : Copy :=
  if ulong size ≤ off then { src := f.tmp, n := 0 }
  else if ulong size < ulong (off + n) then { src := f.tmp + off, n := long (ulong (size - off)) }
  else { src := f.tmp + off, n := long n }

/-- `consread` of a file that is a number. -/
def consread (size : Nat) (f : Frame) (n off : Int) : Copy :=
  readnum (ulong off) (ulong n) size f

/-! ## The system calls -/

/-- The offset of a read of a channel with the offset `c`: that of the channel for `read`, and for
`pread` too if its offset is -1. -/
def seekto (c : Int) : Option Int → Int
  | none => c
  | some off => if off = -1 then c else off

/-- `read` of a file that is no directory: the copy, and the channel's offset after it. -/
def read (dev : Int → Int → Copy) (c n : Int) (pread : Option Int) : Copy × Int :=
  let r := dev n (seekto c pread)
  (r, if pread = none ∨ pread = some (-1) then c + r.n else c)

/-- The bytes of the reads of a channel whose offset is `c` with the counts given, one after
another. -/
def readall (w : View) (dev : Int → Int → Copy) : Int → List Nat → List UInt8
  | _, [] => []
  | c, n :: counts =>
    let r := read dev c n none
    w.copied r.1 ++ readall w dev r.2 counts

/-- Each of these reads meets a condition on its count and offset. -/
def Along (ok : Int → Int → Prop) (dev : Int → Int → Copy) : Int → List Nat → Prop
  | _, [] => True
  | c, n :: counts => ok n c ∧ Along ok dev (read dev c n none).2 counts

/-! ## Statements -/

/-- The call `call` with the count `n` copies bytes of the value only, and any kernel with the same
value would copy the same. -/
structure Discreet {K : Type} (view : K → View) (call : K → Copy) (n : Int) (k : K) : Prop where
  count : 0 ≤ (call k).n ∧ (call k).n ≤ n
  inside : (call k).n = 0 ∨
    (view k).base ≤ (call k).src ∧ (call k).src + (call k).n ≤ (view k).base + (view k).len
  same : ∀ k', (view k').value = (view k).value →
    (call k').n = (call k).n ∧ (view k').copied (call k') = (view k).copied (call k)

/-- In 32 bits the offset is not negative, and its sum with the count does not overflow; or nothing
is left to read. -/
def Tame (t : Text) (n off : Int) : Prop :=
  n = 0 ∨ t.strlen ≤ long off ∨ 0 ≤ long off ∧ long off + n < 2147483648

/-! ## Windows of memory -/

variable {mem mem' : Int → UInt8} {a a' : Int} {n k : Nat}

@[simp] theorem window_length (mem : Int → UInt8) (a : Int) (n : Nat) :
    (window mem a n).length = n := by
  simp [window]

@[simp] theorem window_zero (mem : Int → UInt8) (a : Int) : window mem a 0 = [] := rfl

theorem window_getElem? (h : k < n) : (window mem a n)[k]? = some (mem (a + k)) := by
  simp [window, h]

/-- A part of a window. -/
theorem window_part {m : Nat} (h : k + n ≤ m) :
    window mem (a + k) n = ((window mem a m).drop k).take n := by
  apply List.ext_getElem?
  intro i
  by_cases hi : i < n
  · rw [window_getElem? hi, List.getElem?_take_of_lt hi, List.getElem?_drop,
      window_getElem? (by omega), Nat.cast_add, Int.add_assoc]
  · rw [List.getElem?_eq_none (by simpa using hi), List.getElem?_eq_none]
    simp only [List.length_take, List.length_drop, window_length]
    omega

namespace View

variable {w w' : View}

@[simp] theorem value_length (w : View) : w.value.length = w.len := window_length _ _ _

theorem len_eq (h : w'.value = w.value) : w'.len = w.len := by
  rw [← w'.value_length, h, w.value_length]

/-- The copy of `n` bytes of a value, `o` bytes from its start. -/
theorem copied_eq {o n : Int} (ho : 0 ≤ o) (hn : 0 ≤ n) (h : o + n ≤ w.len) :
    w.copied { src := w.base + o, n := n } = (w.value.drop o.toNat).take n.toNat := by
  have hpart := @window_part w.mem w.base n.toNat o.toNat w.len (by omega)
  rw [Int.toNat_of_nonneg ho] at hpart
  exact hpart

end View

/-! ## One call -/

/-- A copy from a value of `n` bytes at most, `o` bytes from its start. -/
def clipped (w : View) (n o : Int) : Copy :=
  if w.len ≤ o then { src := w.base, n := 0 }
  else if w.len - o < n then { src := w.base + o, n := w.len - o }
  else { src := w.base + o, n := n }

section

variable {w w' : View} {m o : Int}

theorem clipped_end (h : w.len ≤ o) : clipped w m o = { src := w.base, n := 0 } := if_pos h

theorem clipped_rest (ho : o < w.len) (h : w.len - o < m) :
    clipped w m o = { src := w.base + o, n := w.len - o } := by
  rw [clipped, if_neg (by omega), if_pos h]

theorem clipped_all (ho : o < w.len) (h : m ≤ w.len - o) :
    clipped w m o = { src := w.base + o, n := m } := by
  rw [clipped, if_neg (by omega), if_neg (by omega)]

theorem clipped_count (hm : 0 ≤ m) :
    0 ≤ (clipped w m o).n ∧ (clipped w m o).n ≤ m ∧ (o ≤ w.len → o + (clipped w m o).n ≤ w.len) := by
  unfold clipped
  split
  · exact ⟨Int.le_refl _, hm, by simp⟩
  · split
    · simp only
      omega
    · simp only
      omega

theorem clipped_inside (ho : 0 ≤ o) : (clipped w m o).n = 0 ∨
    w.base ≤ (clipped w m o).src ∧ (clipped w m o).src + (clipped w m o).n ≤ w.base + w.len := by
  unfold clipped
  split
  · exact .inl rfl
  · right
    split
    · simp only
      omega
    · simp only
      omega

theorem clipped_copied (ho : 0 ≤ o) (hm : 0 ≤ m) :
    w.copied (clipped w m o) = (w.value.drop o.toNat).take m.toNat := by
  unfold clipped
  split
  · next h =>
    have hnil : w.value.drop o.toNat = [] := List.drop_eq_nil_of_le (by rw [w.value_length]; omega)
    rw [hnil, List.take_nil]
    rfl
  · split
    · next hlt =>
      have hlen : (w.value.drop o.toNat).length = (w.len - o).toNat := by
        rw [List.length_drop, w.value_length]
        omega
      rw [View.copied_eq ho (by omega) (by omega), List.take_of_length_le (by omega),
        List.take_of_length_le (by omega)]
    · exact View.copied_eq ho hm (by omega)

/-- Calls that copy what is there and no more are discreet. -/
theorem discreet_of_clipped {K : Type} {view : K → View} {call : K → Copy} {k : K} (ho : 0 ≤ o)
    (hm : 0 ≤ m) (h : ∀ k', (view k').len = (view k).len → call k' = clipped (view k') m o) :
    Discreet view call m k := by
  have hk := h k rfl
  obtain ⟨hpos, hle, -⟩ := clipped_count (w := view k) (o := o) hm
  refine ⟨by rw [hk]; exact ⟨hpos, hle⟩, by rw [hk]; exact clipped_inside ho, fun k' hv => ?_⟩
  have hlen := View.len_eq hv
  rw [h k' hlen, hk]
  refine ⟨?_, by rw [clipped_copied ho hm, clipped_copied ho hm, hv]⟩
  unfold clipped
  rw [hlen]
  split
  · rfl
  · split <;> rfl

end

/-! ## Strings -/

variable {t : Text} {off : Int}

theorem Text.strlen_lt (t : Text) : t.strlen < 2147483648 := (Nat.find_spec t.ends).1

theorem Text.strlen_eq {len : Nat} (hlen : len < 2147483648) (h : t.mem (t.str + len) = 0)
    (hne : ∀ i < len, t.mem (t.str + (i : Nat)) ≠ 0) : t.strlen = len :=
  (Nat.find_eq_iff t.ends).mpr ⟨⟨hlen, h⟩, fun i hi h' => hne i hi h'.2⟩

theorem long_ulong (x : Int) : long (ulong x) = long x := by
  unfold long ulong
  omega

/-- Where the numbers fit, `readstr` copies what is there. -/
theorem readstr_clipped {m : Int} (ho : 0 ≤ off) (hm : 0 ≤ m)
    (h : t.strlen ≤ off ∨ off + m < 2147483648) : readstr off m t = clipped t.view m off := by
  have hlt := t.strlen_lt
  have hsize : long t.strlen = t.strlen := long_eq (by omega) (by omega)
  have hlen : t.view.len = t.strlen := rfl
  simp only [readstr, hsize]
  by_cases hle : (t.strlen : Int) ≤ off
  · rw [if_pos hle, clipped_end hle]
    rfl
  · rw [if_neg hle, long_eq (x := off + m) (by omega) (by omega)]
    by_cases hmore : t.strlen < off + m
    · rw [if_pos hmore, clipped_rest (by omega) (by omega), long_eq (by omega) (by omega)]
      rfl
    · rw [if_neg hmore, clipped_all (by omega) (by omega)]
      rfl

theorem readstr_zero (hlow : -2147483648 ≤ off) (hhigh : off < 2147483648) :
    (readstr off 0 t).n = 0 := by
  have hlt := t.strlen_lt
  have hsize : long t.strlen = t.strlen := long_eq (by omega) (by omega)
  simp only [readstr, hsize, Int.add_zero, long_eq hlow hhigh]
  by_cases hle : (t.strlen : Int) ≤ off
  · rw [if_pos hle]
  · rw [if_neg hle, if_neg (by omega)]

/-- A negative offset makes `readstr` copy from in front of the string, and a sum that overflows
makes it copy past the end. -/
theorem readstr_outside {m : Int} (hrange : -2147483648 ≤ off) (hm : 0 < m) (hm' : m < 2147483648)
    (ho : off < t.strlen) (h : off < 0 ∨ 2147483648 ≤ off + m) :
    0 < (readstr off m t).n ∧ ((readstr off m t).src < t.str ∨
      t.str + t.strlen < (readstr off m t).src + (readstr off m t).n) := by
  have hlt := t.strlen_lt
  have hsize : long t.strlen = t.strlen := long_eq (by omega) (by omega)
  simp only [readstr, hsize, if_neg (Int.not_le.mpr ho)]
  rcases Int.lt_or_le off 0 with hneg | hpos
  · rw [long_eq (x := off + m) (by omega) (by omega)]
    split
    · rw [long_eq (by omega) (by omega)]
      exact ⟨show (0 : Int) < t.strlen - off by omega, .inl (by simp only; omega)⟩
    · exact ⟨hm, .inl (by simp only; omega)⟩
  · have hover : long (off + m) = off + m - 4294967296 := by
      unfold long
      omega
    rw [if_neg (by omega)]
    exact ⟨hm, .inr (by simp only; omega)⟩

theorem ipread_discreet {m : Int} (hm : 0 ≤ m) (hm' : m < 2147483648) :
    Discreet Text.view (fun t => ipread t m off) m t ↔ Tame t m off := by
  obtain ⟨hlow, hhigh⟩ := long_range off
  have hcall : ∀ t, ipread t m off = readstr (long off) m t := by
    intro t
    simp only [ipread, long_ulong]
  constructor
  · rintro ⟨-, hin, -⟩
    rw [hcall] at hin
    by_contra hnot
    simp only [Tame, not_or, not_and] at hnot
    obtain ⟨h0, hlen, hsum⟩ := hnot
    obtain ⟨hpos, hout⟩ := @readstr_outside t (long off) m hlow (by omega) hm' (by omega) (by omega)
    simp only [Text.view] at hin
    omega
  · rintro (rfl | hfit)
    · have hzero : ∀ t, (ipread t 0 off).n = 0 := by
        intro t
        rw [hcall]
        exact readstr_zero hlow hhigh
      refine ⟨by simp only [hzero]; omega, .inl (hzero t), fun t' _ => ⟨?_, ?_⟩⟩
      · rw [hzero, hzero]
      · simp only [View.copied, hzero, Int.toNat_zero, window_zero]
    · refine discreet_of_clipped (o := long off) (by omega) hm fun t' hlen => ?_
      simp only [Text.view] at hlen
      rw [hcall]
      exact readstr_clipped (by omega) hm (by omega)

/-! ## Numbers -/

variable {f : Frame} {val size : Nat}

theorem ulong_nonneg (x : Int) : 0 ≤ ulong x := by
  unfold ulong
  omega

theorem ulong_eq {x : Int} (h : 0 ≤ x) (h' : x < 4294967296) : ulong x = x := by
  unfold ulong
  omega

theorem consread_clipped {m : Int} (hsize : size ≤ 64) (hm : 0 ≤ m) (hm' : m < 2147483648) :
    consread size f m off = clipped (f.view val size) m (ulong off) := by
  have hlen : (f.view val size).len = size := rfl
  have ho := ulong_nonneg off
  have hs : ulong size = size := ulong_eq (by omega) (by omega)
  simp only [consread, readnum, ulong_eq hm (by omega : m < 4294967296), hs]
  generalize ulong off = o at ho ⊢
  by_cases hle : (size : Int) ≤ o
  · rw [if_pos hle, clipped_end hle]
    rfl
  · rw [if_neg hle, ulong_eq (x := o + m) (by omega) (by omega)]
    by_cases hmore : size < o + m
    · rw [if_pos hmore, clipped_rest (by omega) (by omega), ulong_eq (by omega) (by omega),
        long_eq (by omega) (by omega)]
      rfl
    · rw [if_neg hmore, clipped_all (by omega) (by omega), long_eq (by omega) hm']
      rfl

theorem decimal_length (width val : Nat) : width ≤ (decimal width val).length := by
  simp only [decimal, List.length_append, List.length_replicate]
  omega

/-- Nothing of the stack shows through. -/
theorem Frame.value_eq (f : Frame) (val : Nat) (hpos : 0 < size) (hsize : size ≤ 64) :
    (f.view val size).value = (decimal (size - 1) val).take (size - 1) ++ [32] := by
  have hlen := decimal_length (size - 1) val
  have hview : (f.view val size).value = window (f.view val size).mem f.tmp size := rfl
  rw [hview]
  apply List.ext_getElem?
  intro i
  rcases Nat.lt_trichotomy i (size - 1) with hi | rfl | hi
  · rw [window_getElem? (show i < size by omega), List.getElem?_append_left
      (by rw [List.length_take]; omega), List.getElem?_take_of_lt hi]
    have htext : i < ((decimal (size - 1) val).take (64 - 1)).length := by
      rw [List.length_take]
      omega
    simp only [Frame.view, snprint]
    rw [if_neg (by omega), if_pos (by omega), add_sub_cancel_left, Int.toNat_natCast,
      List.getD_eq_getElem?_getD, List.getElem?_eq_getElem (by omega)]
    rfl
  · rw [window_getElem? (show size - 1 < size by omega), List.getElem?_append_right
      (by rw [List.length_take]; omega), List.length_take, Nat.min_eq_left hlen, Nat.sub_self]
    simp only [Frame.view]
    rw [if_pos (by omega)]
    rfl
  · rw [List.getElem?_eq_none (by rw [window_length]; omega),
      List.getElem?_eq_none (by simp only [List.length_append, List.length_take,
        List.length_singleton]; omega)]

/-! ## One read after another -/

theorem readall_exact {w : View} {dev : Int → Int → Copy} {ok : Int → Int → Prop}
    (hdev : ∀ n o : Nat, n < 2147483648 → o ≤ w.len → ok n o → dev n o = clipped w n o)
    {counts : List Nat} (hcounts : ∀ n ∈ counts, n < 2147483648) {c : Nat} (hc : c ≤ w.len)
    (hok : Along ok dev c counts) :
    readall w dev c counts = (w.value.drop c).take (counts.foldr (· + ·) 0) := by
  induction counts generalizing c with
  | nil => simp [readall]
  | cons n counts ih =>
    obtain ⟨hn, hcounts⟩ := List.forall_mem_cons.mp hcounts
    have hcall : dev n c = clipped w n c := hdev n c hn hc hok.1
    obtain ⟨next, hnext, hle, hdrop⟩ : ∃ next : Nat, (c : Int) + (clipped w n c).n = next ∧
        next ≤ w.len ∧ w.value.drop (c + n) = w.value.drop next := by
      rcases Nat.le_total (c + n) w.len with h | h
      · refine ⟨c + n, ?_, h, rfl⟩
        rcases Nat.eq_or_lt_of_le hc with hend | hlt
        · rw [clipped_end (by omega)]
          simp only
          omega
        · rw [clipped_all (by omega) (by omega)]
          rfl
      · refine ⟨w.len, ?_, Nat.le_refl _, ?_⟩
        · rcases Nat.eq_or_lt_of_le hc with hend | hlt
          · rw [clipped_end (by omega)]
            simp only
            omega
          · rcases Nat.eq_or_lt_of_le h with hall | hrest
            · rw [clipped_all (by omega) (by omega)]
              simp only
              omega
            · rw [clipped_rest (by omega) (by omega)]
              simp only
              omega
        · rw [List.drop_eq_nil_of_le (by rw [w.value_length]; omega),
            List.drop_eq_nil_of_le (by rw [w.value_length])]
    have hstep : (read dev c n none).2 = next := by
      simp only [read, seekto, hcall, true_or, if_true, hnext]
    rw [readall]
    simp only [hstep]
    have hcopy : w.copied (read dev c n none).1 = (w.value.drop c).take n :=
      (congrArg w.copied hcall).trans (clipped_copied (by omega) (by omega))
    rw [ih hcounts hle (by rw [← hstep]; exact hok.2), hcopy, List.foldr_cons, List.take_add,
      List.drop_drop, hdrop]

/-- What the process gets from the file of a string `t`, and from the file of a number `val` that
`readnum` formats in the frame `f`. -/
structure Reads (t : Text) (f : Frame) (val size : Nat) : Prop where
  text : ∀ (c n : Int) (pread : Option Int), 0 ≤ n → n < 2147483648 →
    (Discreet Text.view (fun t => (read (ipread t) c n pread).1) n t ↔ Tame t n (seekto c pread))
  texts : ∀ counts : List Nat, (∀ n ∈ counts, n < 2147483648) → Along (Tame t) (ipread t) 0 counts →
    readall t.view (ipread t) 0 counts = t.value.take (counts.foldr (· + ·) 0)
  number : ∀ (c n : Int) (pread : Option Int), 0 < size → size ≤ 64 → 0 ≤ n → n < 2147483648 →
    (f.view val size).value = (decimal (size - 1) val).take (size - 1) ++ [32] ∧
      Discreet (Frame.view val size) (fun f => (read (consread size f) c n pread).1) n f
  numbers : ∀ counts : List Nat, size ≤ 64 → (∀ n ∈ counts, n < 2147483648) →
    readall (f.view val size) (consread size f) 0 counts =
      (f.view val size).value.take (counts.foldr (· + ·) 0)

theorem ipread_tame {n o : Nat} (hn : n < 2147483648) (ho : o ≤ t.strlen) (h : Tame t n o) :
    ipread t n o = clipped t.view n o := by
  have hlt := t.strlen_lt
  have hlong : long o = o := long_eq (by omega) (by omega)
  rw [ipread, long_ulong, hlong]
  unfold Tame at h
  rw [hlong] at h
  exact readstr_clipped (by omega) (by omega) (by omega)

/-- A string is read safely just when the offset and the count are tame; a number always is. -/
theorem reads_exact (t : Text) (f : Frame) (val size : Nat) : Reads t f val size where
  text c n pread hn hn' := by
    simp only [read]
    exact ipread_discreet hn hn'
  texts counts hcounts hok := by
    have h := readall_exact (w := t.view) (fun n o hn ho => ipread_tame hn ho) hcounts
      (Nat.zero_le _) hok
    rwa [List.drop_zero] at h
  number c n pread hpos hsize hn hn' := by
    refine ⟨f.value_eq val hpos hsize, ?_⟩
    simp only [read]
    exact discreet_of_clipped (ulong_nonneg _) hn fun f' _ => consread_clipped hsize hn hn'
  numbers counts hsize hcounts := by
    have hdev : ∀ n o : Nat, n < 2147483648 → o ≤ (f.view val size).len → True →
        consread size f n o = clipped (f.view val size) n o := by
      intro n o hn ho _
      have hlen : (f.view val size).len = size := rfl
      have hcall : consread size f n o = clipped (f.view val size) n (ulong o) :=
        consread_clipped hsize (by omega) (by omega)
      rw [hcall, ulong_eq (by omega) (by omega)]
    have hok : ∀ (counts : List Nat) (c : Int),
        Along (fun _ _ => True) (consread size f) c counts := by
      intro counts
      induction counts with
      | nil => exact fun _ => trivial
      | cons n counts ih => exact fun c => ⟨trivial, ih _⟩
    have h := readall_exact hdev hcounts (Nat.zero_le _) (hok counts 0)
    rwa [List.drop_zero] at h

/-! ## In front of a string -/

theorem secret_ends (x : UInt8) :
    ∃ i : Nat, i < 2147483648 ∧ (fun a : Int => if a < 0 then x else 0) (0 + (i : Nat)) = 0 :=
  ⟨0, by decide, rfl⟩

/-- The empty string, with the bytes `x` in front of it. -/
private def secret (x : UInt8) : Text where
  mem := fun a => if a < 0 then x else 0
  str := 0
  ends := secret_ends x

theorem secret_strlen (x : UInt8) : (secret x).strlen = 0 :=
  Text.strlen_eq (by decide) rfl fun i hi => absurd hi (Nat.not_lt_zero i)

theorem secret_read (x : UInt8) :
    (secret x).view.copied (read (ipread (secret x)) 0 1 (some (-2))).1 = [x] := by
  have hsize : long ((secret x).strlen : Nat) = 0 := by
    rw [secret_strlen]
    rfl
  have hsum : long (-2 + 1) = -1 := rfl
  have hcall : ipread (secret x) 1 (-2) = { src := (secret x).str + -2, n := 1 } := by
    rw [ipread, long_ulong, long_eq (by decide) (by decide)]
    simp only [readstr, hsize, hsum]
    rw [if_neg (by decide), if_neg (by decide)]
  simp only [read, seekto]
  rw [if_neg (by decide), hcall]
  rfl

/-- A negative offset reads what is in front of the string. -/
theorem reads_before : ¬ ∀ (t t' : Text) (n off : Int), 0 ≤ n → n < 2147483648 →
    t.value = t'.value → t.view.copied (read (ipread t) 0 n (some off)).1 =
      t'.view.copied (read (ipread t') 0 n (some off)).1 := by
  intro h
  have hvalue : ∀ x, (secret x).value = [] := by
    intro x
    rw [← List.length_eq_zero_iff, Text.value, View.value_length]
    exact secret_strlen x
  have hread := h (secret 1) (secret 2) 1 (-2) (by decide) (by decide)
    ((hvalue 1).trans (hvalue 2).symm)
  rw [secret_read, secret_read] at hread
  exact absurd (List.cons.inj hread).1 (by decide)

end NixMark.Cons
