import Mathlib.Data.List.Basic

/-!
# Directory entries of 9P

An entry is its size, the fields of a fixed width, and four counted strings, with all numbers the low
byte first. The size does not count itself.

* `Dir`, `decode`: the fields of the bytes, when they are an entry and nothing else.
* `decode_eq`, `decode_some`: an entry is its size, the fixed fields, the name with its count and the
  other strings.
-/

namespace NixMark.Stat

def BIT16SZ : Nat := 2

/-- Where the name begins, with its count. -/
def NAMEOFF : Nat := 41

structure Qid where
  type : Nat
  vers : Nat
  path : Nat
deriving DecidableEq

structure Dir where
  type : Nat
  dev : Nat
  qid : Qid
  mode : Nat
  atime : Nat
  mtime : Nat
  length : Nat
  name : List UInt8
  uid : List UInt8
  gid : List UInt8
  muid : List UInt8
deriving DecidableEq

/-- A number, the low byte first. -/
def number (bs : List UInt8) : Nat := bs.foldr (fun b v => b.toNat + 256 * v) 0

/-- The `n` bytes from `o` on, as a number. -/
def field (bs : List UInt8) (o n : Nat) : Nat := number ((bs.drop o).take n)

/-- A counted string, and what is behind it. -/
def gstring (bs : List UInt8) : Option (List UInt8 × List UInt8) :=
  let n := field bs 0 BIT16SZ
  if BIT16SZ + n ≤ bs.length then some ((bs.drop BIT16SZ).take n, (bs.drop BIT16SZ).drop n) else none

/-- The strings behind the name. -/
def owners (bs : List UInt8) : Option (List UInt8 × List UInt8 × List UInt8) :=
  (gstring bs).bind fun uid => (gstring uid.2).bind fun gid => (gstring gid.2).bind fun muid =>
    if muid.2 = [] then some (uid.1, gid.1, muid.1) else none

/-- The fields between the size and the name. -/
def Dir.ofFixed (bs name : List UInt8) (own : List UInt8 × List UInt8 × List UInt8) : Dir where
  type := field bs 0 2
  dev := field bs 2 4
  qid := { type := field bs 6 1, vers := field bs 7 4, path := field bs 11 8 }
  mode := field bs 19 4
  atime := field bs 23 4
  mtime := field bs 27 4
  length := field bs 31 8
  name := name
  uid := own.1
  gid := own.2.1
  muid := own.2.2

/-- The bytes are one entry. -/
def decode (bs : List UInt8) : Option Dir :=
  if field bs 0 BIT16SZ + BIT16SZ = bs.length then
    (gstring (bs.drop NAMEOFF)).bind fun name =>
      (owners name.2).map (.ofFixed ((bs.drop BIT16SZ).take (NAMEOFF - BIT16SZ)) name.1)
  else none

/-! ## Numbers of two bytes -/

theorem number_pair (a b : UInt8) : number [a, b] = a.toNat + 256 * b.toNat := rfl

theorem number_pair_lt (a b : UInt8) : number [a, b] < 65536 := by
  have ha := a.toNat_lt
  have hb := b.toNat_lt
  rw [number_pair]
  omega

theorem field_pair (a b : UInt8) (l : List UInt8) :
    field (a :: b :: l) 0 BIT16SZ = number [a, b] := rfl

/-! ## Strings -/

theorem gstring_eq {a b : UInt8} {s l : List UInt8} (h : number [a, b] = s.length) :
    gstring (a :: b :: (s ++ l)) = some (s, l) := by
  have hlen : BIT16SZ + s.length ≤ (a :: b :: (s ++ l)).length := by
    simp only [BIT16SZ, List.length_cons, List.length_append]
    omega
  rw [gstring, field_pair, h, if_pos hlen]
  simp only [BIT16SZ, List.drop_succ_cons, List.drop_zero, List.take_left', List.drop_left']

theorem gstring_some {bs s l : List UInt8} (h : gstring bs = some (s, l)) :
    ∃ a b, number [a, b] = s.length ∧ bs = a :: b :: (s ++ l) := by
  unfold gstring at h
  dsimp only at h
  obtain ⟨hlen, he⟩ := Option.ite_none_right_eq_some.mp h
  obtain _ | ⟨a, _ | ⟨b, bs⟩⟩ := bs
  · simp only [BIT16SZ, List.length_nil] at hlen
    omega
  · simp only [BIT16SZ, List.length_singleton] at hlen
    omega
  rw [field_pair] at hlen he
  simp only [BIT16SZ, List.length_cons, List.drop_succ_cons, List.drop_zero, Option.some.injEq,
    Prod.mk.injEq] at hlen he
  obtain ⟨rfl, rfl⟩ := he
  refine ⟨a, b, ?_, by rw [List.take_append_drop]⟩
  rw [List.length_take_of_le (by omega)]

/-! ## Entries -/

/-- The size, the fixed fields, the name and the other strings, when there is a name at all. -/
theorem decode_eq {a b lo hi : UInt8} {fixed name rest : List UInt8}
    (hf : fixed.length + BIT16SZ = NAMEOFF) (hn : number [lo, hi] = name.length) :
    decode (a :: b :: (fixed ++ lo :: hi :: (name ++ rest))) =
      if number [a, b] = NAMEOFF + name.length + rest.length then
        (owners rest).map (.ofFixed fixed name)
      else none := by
  have hlen : (a :: b :: (fixed ++ lo :: hi :: (name ++ rest))).length =
      NAMEOFF + name.length + rest.length + BIT16SZ := by
    simp only [List.length_cons, List.length_append, BIT16SZ] at hf ⊢
    omega
  have hname : (a :: b :: (fixed ++ lo :: hi :: (name ++ rest))).drop NAMEOFF =
      lo :: hi :: (name ++ rest) := by
    rw [← List.cons_append, ← List.cons_append]
    exact List.drop_left' hf
  have hfixed : ((a :: b :: (fixed ++ lo :: hi :: (name ++ rest))).drop BIT16SZ).take
      (NAMEOFF - BIT16SZ) = fixed :=
    List.take_left' (by omega)
  rw [decode, field_pair, hlen, hname, hfixed, gstring_eq hn]
  simp only [Nat.add_right_cancel_iff, Option.bind_some]

theorem decode_some {bs : List UInt8} {d : Dir} (h : decode bs = some d) :
    ∃ (a b lo hi : UInt8) (fixed rest : List UInt8) (own : _),
      bs = a :: b :: (fixed ++ lo :: hi :: (d.name ++ rest)) ∧ fixed.length + BIT16SZ = NAMEOFF ∧
      number [lo, hi] = d.name.length ∧ owners rest = some own ∧ d = .ofFixed fixed d.name own := by
  obtain ⟨-, h⟩ := Option.ite_none_right_eq_some.mp h
  obtain ⟨⟨name, rest⟩, hname, h⟩ := Option.bind_eq_some_iff.mp h
  obtain ⟨own, hown, rfl⟩ := Option.map_eq_some_iff.mp h
  obtain ⟨lo, hi, hn, hdrop⟩ := gstring_some hname
  have hlen := congrArg List.length hdrop
  rw [List.length_drop, List.length_cons] at hlen
  obtain _ | ⟨a, _ | ⟨b, bs⟩⟩ := bs
  · simp only [NAMEOFF, List.length_nil] at hlen
    omega
  · simp only [NAMEOFF, List.length_singleton] at hlen
    omega
  refine ⟨a, b, lo, hi, bs.take (NAMEOFF - BIT16SZ), rest, own, ?_, ?_, hn, hown, rfl⟩
  · have hcut := List.take_append_drop (NAMEOFF - BIT16SZ) bs
    rw [← show (a :: b :: bs).drop NAMEOFF = bs.drop (NAMEOFF - BIT16SZ) from rfl, hdrop] at hcut
    exact congrArg (fun l => a :: b :: l) hcut.symm
  · rw [List.length_take_of_le]
    · rfl
    · simp only [NAMEOFF, BIT16SZ, List.length_cons] at hlen ⊢
      omega

/-- An entry is no longer than its size can say. -/
theorem length_of_decode {bs : List UInt8} {d : Dir} (h : decode bs = some d) :
    bs.length < 65536 + BIT16SZ := by
  obtain ⟨hsize, -⟩ := Option.ite_none_right_eq_some.mp h
  obtain ⟨a, b, lo, hi, fixed, rest, own, rfl, -⟩ := decode_some h
  rw [field_pair] at hsize
  have hlt := number_pair_lt a b
  omega

end NixMark.Stat
