import Mathlib.Data.Fintype.Card
import Mathlib.Algebra.Order.Ring.Nat
import NixMark.Lib.Lts

/-!
# The address ranges of a process (`port/sysseg.c`, `isoverlap`)

A process has `NSEG` slots for segments; `segattach`, `segdetach`, `brk_` and `segbrk` change them. The
table `physseg` is made from the configuration, so it is a parameter; `_globalsegattach` is never
set.

* `Op.disjoint_iff`: a call that succeeds keeps the ranges of the segments disjoint exactly when the
  range that it gives to a segment does not swallow one of the others, whose two ends the tests
  of `isoverlap` and `ibrk` do not see.
* `disjoint_of_unswallowed`: the runs in which no segment is swallowed.
-/

namespace NixMark.Seg

open Lib

abbrev Uintptr := BitVec 64

abbrev NSEG : Nat := 9

def SSEG : Fin NSEG := 0
def TSEG : Fin NSEG := 1
def DSEG : Fin NSEG := 2
def ESEG : Fin NSEG := 3

def SG_TEXT : BitVec 16 := 0
def SG_DATA : BitVec 16 := 1
def SG_STACK : BitVec 16 := 2
def SG_SHARED : BitVec 16 := 3
def SG_TYPE : BitVec 16 := 7

def PGSHFT : Nat := 12
def PGSZ : Uintptr := 1 <<< PGSHFT
def UTZERO : Uintptr := 0x200000
def KSEG2 : Uintptr := 0xfffffe0000000000
def SEGMAXSIZE : Uintptr := 0x7c000000

def ISKADDR (a : Uintptr) : Prop := KSEG2 ≤ a

instance (a : Uintptr) : Decidable (ISKADDR a) := inferInstanceAs (Decidable (_ ≤ _))

def ROUNDUP (x y : Uintptr) : Uintptr := (x + (y - 1)) / y * y

/-- The fields of a `Segment` that the calls read. -/
structure Segment where
  type : BitVec 16
  base : Uintptr
  top : Uintptr
  pgszlg2 : Nat

/-- An entry of the table `physseg`. -/
structure Physseg where
  attr : BitVec 16
  size : Uintptr

/-- The errors of the calls. -/
inductive Err where
  | Ebadarg
  | Enovmem
  | Esoverlap
  | kernelAddress
  | tooManySegments
  | lengthOverflow
  | cannotFit
  | notFound
  | tooLong

/-- A call that does not succeed: it raises an error, or the kernel stops. -/
inductive Stop where
  | error (e : Err)
  | panic

/-- The segments of a process. -/
structure Proc where
  seg : Fin NSEG → Option Segment

/-- `1<<s->pgszlg2` -/
def Segment.pgsize (s : Segment) : Uintptr := 1 <<< s.pgszlg2

namespace Proc

/-- The slot `i` is given `s`. -/
def set (p : Proc) (i : Fin NSEG) (s : Option Segment) : Proc :=
  ⟨Function.update p.seg i s⟩

/-- The range of a segment that is grown to hold `addr`. -/
def newtop (s : Segment) (addr : Uintptr) : Uintptr := ROUNDUP addr s.pgsize

/-- The loop of `ibrk`: the new top is inside another segment. -/
def topInside (p : Proc) (i : Fin NSEG) (top : Uintptr) : Bool :=
  (List.finRange NSEG).any fun j =>
    j ≠ i && (p.seg j).any fun ns => ns.base ≤ top && top < ns.top

/-- `ibrk` from the rounding on. -/
def grow (p : Proc) (i : Fin NSEG) (s : Segment) (addr : Uintptr) : Except Stop Proc :=
  let top := newtop s addr
  if top < s.top then .error .panic
  else if p.topInside i top then .error (.error .Esoverlap)
  else if SEGMAXSIZE < top - s.base then .error (.error .Enovmem)
  else .ok (p.set i (some { s with top := top }))

/-- `ibrk` -/
def ibrk (p : Proc) (addr : Uintptr) (i : Fin NSEG) : Except Stop Proc :=
  match p.seg i with
  | none => .error (.error .Ebadarg)
  | some s =>
    if addr = 0 then .ok p
    else if addr < s.base then
      if i ≠ DSEG ∨ (p.seg DSEG).all (fun d => addr < d.top) then .error (.error .Enovmem)
      else p.grow i s s.base
    else p.grow i s addr

/-- The first segment that contains `addr`. -/
def inside (p : Proc) (addr : Uintptr) : Option (Fin NSEG) :=
  (List.finRange NSEG).find? fun i => (p.seg i).any fun s => s.base ≤ addr && addr < s.top

/-- `syssegbrk`: the first segment that contains `saddr` is grown to hold `addr`. -/
def segbrk (p : Proc) (saddr addr : Uintptr) : Except Stop Proc :=
  match p.inside saddr with
  | none => .error (.error .Ebadarg)
  | some i =>
    match p.seg i with
    | none => .error (.error .Ebadarg)
    | some s =>
      if s.type &&& SG_TYPE = SG_TEXT ∨ s.type &&& SG_TYPE = SG_DATA ∨
          s.type &&& SG_TYPE = SG_STACK then .error (.error .Ebadarg)
      else p.ibrk addr i

/-- `sysbrk_` -/
def brk_ (p : Proc) (addr : Uintptr) : Except Stop Proc := p.ibrk addr DSEG

/-- `isoverlap` -/
def isoverlap (p : Proc) (va len : Uintptr) : Option Segment :=
  let newtop := va + len
  (List.finRange NSEG).findSome? fun i =>
    (p.seg i).filter fun ns =>
      (ns.base < newtop && newtop ≤ ns.top) || (ns.base ≤ va && va < ns.top)

/-- The loop of `segattach` for `va == 0`; `none` when it was not done after `fuel` rounds. -/
def hole (p : Proc) (len : Uintptr) : Nat → Uintptr → Option (Except Stop Uintptr)
  | 0, _ => none
  | fuel + 1, va =>
    match p.isoverlap va len with
    | none => some (.ok va)
    | some os =>
      if os.base < len then some (.error (.error .cannotFit)) else hole p len fuel (os.base - len)

/-- The address to start from: for `va == 0`, a hole is looked for below the stack. -/
def holeAt (p : Proc) (va len : Uintptr) : Except Stop Uintptr :=
  if va = 0 then
    match p.seg SSEG with
    | none => .error .panic
    | some stack => (p.hole len (NSEG + 2) (stack.base - len)).getD (.error .panic)
  else .ok va

/-- The address at which `segattach` puts a segment of `len` bytes. -/
def attachAt (p : Proc) (va len : Uintptr) : Except Stop Uintptr :=
  (p.holeAt va len).map fun va => va &&& ~~~ (PGSZ - 1)

/-- The slot for a new segment. -/
def freeSlot (p : Proc) : Option (Fin NSEG) :=
  (List.finRange NSEG).find? fun i => (p.seg i).isNone && i ≠ ESEG

/-- `newseg`: the part that can fail. -/
def newseg (type : BitVec 16) (base top : Uintptr) (pgszlg2 : Nat) : Except Stop Segment :=
  if (base ||| top) &&& ((1 <<< pgszlg2) - 1) ≠ 0 then .error .panic
  else if SEGMAXSIZE < top - base then .error (.error .Enovmem)
  else .ok ⟨type, base, top, pgszlg2⟩

/-- `segattach` once the slot and the address are known. -/
def attach (physseg : String → Option Physseg) (p : Proc) (attr : BitVec 16) (name : String)
    (sno : Fin NSEG) (va len : Uintptr) : Except Stop Proc :=
  if (p.isoverlap va len).isSome then .error (.error .Esoverlap)
  else
    match physseg name with
    | none => .error (.error .notFound)
    | some ps =>
      if ps.size < len / PGSZ then .error (.error .tooLong)
      else
        (newseg ((attr &&& ~~~ SG_TYPE) ||| ps.attr) va (va + len) PGSHFT).map fun s =>
          p.set sno (some s)

/-- `segattach` -/
def segattach (physseg : String → Option Physseg) (p : Proc) (attr : BitVec 16) (name : String)
    (va len : Uintptr) : Except Stop Proc :=
  if (va ≠ 0 ∧ va < UTZERO) ∨ ISKADDR va then .error (.error .kernelAddress)
  else
    match p.freeSlot with
    | none => .error (.error .tooManySegments)
    | some sno =>
      let len := ROUNDUP len PGSZ
      if len = 0 then .error (.error .lengthOverflow)
      else
        match p.attachAt va len with
        | .error e => .error e
        | .ok va => p.attach physseg attr name sno va len

/-- `syssegdetach`: the first segment at `addr`; the stack stays. -/
def segdetach (p : Proc) (addr : Uintptr) : Except Stop Proc :=
  let found (i : Fin NSEG) := (p.seg i).any fun s =>
    (s.base ≤ addr && addr < s.top) || (s.top == s.base && addr == s.base)
  match (List.finRange NSEG).find? found with
  | none => .error (.error .Ebadarg)
  | some i => if i = SSEG then .error (.error .Ebadarg) else .ok (p.set i none)

/-! ## The ranges -/

/-- No address is in two segments. -/
def Disjoint (p : Proc) : Prop :=
  ∀ i j s t, i ≠ j → p.seg i = some s → p.seg j = some t →
    ∀ x, ¬ ((s.base ≤ x ∧ x < s.top) ∧ (t.base ≤ x ∧ x < t.top))

/-- The other segments that are not empty end above `top`, or not above `base`: none of them is
swallowed by the range. -/
def Spares (p : Proc) (i : Fin NSEG) (base top : Uintptr) : Prop :=
  ∀ j t, j ≠ i → p.seg j = some t → t.base < t.top → ¬ (base < t.top ∧ t.top ≤ top)

/-- What the tests of `isoverlap` and of `ibrk` see: a segment that the range reaches into at its
end. -/
def Tested (p : Proc) (i : Fin NSEG) (top : Uintptr) : Prop :=
  ∀ j t, j ≠ i → p.seg j = some t → t.base < t.top → top ≤ t.base ∨ t.top ≤ top

variable {p : Proc} {i : Fin NSEG} {s : Segment}

theorem set_self (p : Proc) (i : Fin NSEG) (s : Option Segment) : (p.set i s).seg i = s :=
  Function.update_self _ _ _

theorem set_ne (p : Proc) {i j : Fin NSEG} (s : Option Segment) (h : j ≠ i) :
    (p.set i s).seg j = p.seg j := Function.update_of_ne h _ _

/-- A slot that is cleared. -/
theorem Disjoint.clear (h : p.Disjoint) (i : Fin NSEG) : (p.set i none).Disjoint := by
  intro j k s t hjk hs ht
  by_cases hj : j = i
  · rw [hj, set_self] at hs
    cases hs
  by_cases hk : k = i
  · rw [hk, set_self] at ht
    cases ht
  rw [set_ne _ _ hj] at hs
  rw [set_ne _ _ hk] at ht
  exact h j k s t hjk hs ht

/-- A segment whose end was tested is apart from the others exactly when it swallows none. -/
theorem Disjoint.set_iff (h : p.Disjoint) (ht : p.Tested i s.top) :
    (p.set i (some s)).Disjoint ↔ p.Spares i s.base s.top := by
  constructor
  · -- the last address of a segment that is swallowed is in both
    intro hd j t hj hjt hne ⟨hb, hte⟩
    refine hd i j s t hj.symm (set_self _ _ _) (by rw [set_ne _ _ hj, hjt])
      (if s.base ≤ t.base then t.base else s.base) ?_
    split <;> bv_omega
  · intro hs
    have key : ∀ j t, j ≠ i → p.seg j = some t →
        ∀ x, ¬ ((s.base ≤ x ∧ x < s.top) ∧ (t.base ≤ x ∧ x < t.top)) := by
      intro j t hj hjt x ⟨⟨h₁, h₂⟩, h₃, h₄⟩
      have hne : t.base < t.top := by bv_omega
      have h₅ := ht j t hj hjt hne
      have h₆ := hs j t hj hjt hne
      bv_omega
    intro j k a b hjk ha hb x hx
    by_cases hj : j = i
    · subst hj
      rw [set_self] at ha
      cases ha
      rw [set_ne _ _ hjk.symm] at hb
      exact key k b hjk.symm hb x hx
    by_cases hk : k = i
    · subst hk
      rw [set_self] at hb
      cases hb
      rw [set_ne _ _ hj] at ha
      exact key j a hj ha x hx.symm
    rw [set_ne _ _ hj] at ha
    rw [set_ne _ _ hk] at hb
    exact h j k a b hjk ha hb x hx

/-! ## The hole search -/

theorem isoverlap_none {va len : Uintptr} (h : p.isoverlap va len = none) (hi : p.seg i = some s) :
    ¬ (s.base < va + len ∧ va + len ≤ s.top) ∧ ¬ (s.base ≤ va ∧ va < s.top) := by
  have h := List.findSome?_eq_none_iff.mp h i (List.mem_finRange i)
  rw [hi, Option.filter_eq_none_iff] at h
  simpa [not_or] using h s rfl

end Proc

/-! ## The calls -/

/-- A call of a process. -/
inductive Op where
  | segattach (attr : BitVec 16) (name : String) (va len : Uintptr)
  | segdetach (addr : Uintptr)
  | brk_ (addr : Uintptr)
  | segbrk (saddr addr : Uintptr)

/-- The slot, the base and the new top of the segment that `ibrk` grows. -/
def Proc.grown (p : Proc) (addr : Uintptr) (i : Fin NSEG) : Option (Fin NSEG × Uintptr × Uintptr) :=
  match p.seg i with
  | none => none
  | some s =>
    if addr = 0 then none
    else some (i, s.base, Proc.newtop s (if addr < s.base then s.base else addr))

namespace Op

variable (physseg : String → Option Physseg)

def run (p : Proc) : Op → Except Stop Proc
  | segattach attr name va len => p.segattach physseg attr name va len
  | segdetach addr => p.segdetach addr
  | brk_ addr => p.brk_ addr
  | segbrk saddr addr => p.segbrk saddr addr

/-- The slot and the range that a call is about to give to a segment. -/
def gives (p : Proc) : Op → Option (Fin NSEG × Uintptr × Uintptr)
  | segattach _ _ va len =>
    match p.freeSlot, p.attachAt va (ROUNDUP len PGSZ) with
    | some sno, .ok va => some (sno, va, va + ROUNDUP len PGSZ)
    | _, _ => none
  | segdetach _ => none
  | brk_ addr => p.grown addr DSEG
  | segbrk saddr addr => (p.inside saddr).bind (p.grown addr)

/-- A call that fails leaves the segments; a panic ends the run. -/
def next (p : Proc) (op : Op) : Option Proc :=
  match op.run physseg p with
  | .ok p' => some p'
  | .error (.error _) => some p
  | .error .panic => none

/-- The call, if it succeeds, does not give to a segment a range that swallows another one. -/
def Unswallowed (p : Proc) (op : Op) : Prop :=
  (op.run physseg p).isOk → ∀ i base top, op.gives p = some (i, base, top) → p.Spares i base top

end Op

/-- The calls of one process. -/
def calls (physseg : String → Option Physseg) : Lts Proc Op where
  init := Proc.Disjoint
  step p op p' := op.next physseg p = some p'

namespace Proc

variable {physseg : String → Option Physseg} {p p' : Proc} {i : Fin NSEG} {s : Segment}

theorem tested_of_topInside {top : Uintptr} (h : ¬ p.topInside i top = true) : p.Tested i top := by
  intro j t hj ht hne
  rw [topInside, List.any_eq_true] at h
  have hout : ¬ (t.base ≤ top ∧ top < t.top) := by
    intro hin
    exact h ⟨j, List.mem_finRange j, by simp [hj, ht, hin]⟩
  bv_omega

theorem tested_of_isoverlap {va len : Uintptr} (h : p.isoverlap va len = none) :
    p.Tested i (va + len) := by
  intro j t _ ht hne
  have hout := (isoverlap_none h ht).1
  bv_omega

theorem grow_ok {addr : Uintptr} (h : p.grow i s addr = .ok p') :
    p' = p.set i (some { s with top := newtop s addr }) ∧ p.Tested i (newtop s addr) := by
  unfold grow at h
  simp only at h
  split_ifs at h with h₁ h₂ h₃
  cases h
  exact ⟨rfl, tested_of_topInside h₂⟩

theorem ibrk_ok {addr : Uintptr} (h : p.ibrk addr i = .ok p') :
    (p' = p ∧ p.grown addr i = none) ∨
      ∃ s, p' = p.set i (some s) ∧ p.grown addr i = some (i, s.base, s.top) ∧ p.Tested i s.top := by
  unfold ibrk at h
  unfold grown
  cases hi : p.seg i with
  | none =>
    rw [hi] at h
    cases h
  | some s =>
    simp only [hi] at h ⊢
    by_cases h0 : addr = 0
    · rw [if_pos h0] at h ⊢
      cases h
      exact .inl ⟨rfl, rfl⟩
    rw [if_neg h0] at h ⊢
    by_cases hb : addr < s.base
    · rw [if_pos hb] at h ⊢
      split_ifs at h
      obtain ⟨rfl, ht⟩ := grow_ok h
      exact .inr ⟨_, rfl, rfl, ht⟩
    · rw [if_neg hb] at h ⊢
      obtain ⟨rfl, ht⟩ := grow_ok h
      exact .inr ⟨_, rfl, rfl, ht⟩

theorem attach_ok {attr : BitVec 16} {name : String} {va len : Uintptr}
    (h : p.attach physseg attr name i va len = .ok p') :
    ∃ s, p' = p.set i (some s) ∧ s.base = va ∧ s.top = va + len ∧ p.Tested i (va + len) := by
  unfold attach at h
  cases ho : p.isoverlap va len with
  | some os =>
    rw [ho, if_pos Option.isSome_some] at h
    cases h
  | none =>
    simp only [ho, Option.isSome_none, Bool.false_eq_true, if_false] at h
    cases hps : physseg name with
    | none =>
      rw [hps] at h
      cases h
    | some ps =>
      rw [hps] at h
      simp only at h
      unfold newseg at h
      split_ifs at h
      · cases h
      · cases h
      · cases h
        exact ⟨_, rfl, rfl, rfl, tested_of_isoverlap ho⟩

theorem segattach_ok {attr : BitVec 16} {name : String} {va len : Uintptr}
    (h : p.segattach physseg attr name va len = .ok p') :
    ∃ i s, p' = p.set i (some s) ∧
      (Op.segattach attr name va len).gives p = some (i, s.base, s.top) ∧ p.Tested i s.top := by
  unfold segattach at h
  split_ifs at h with hva
  cases hf : p.freeSlot with
  | none =>
    rw [hf] at h
    cases h
  | some sno =>
    simp only [hf] at h
    split_ifs at h with hlen
    cases ha : p.attachAt va (ROUNDUP len PGSZ) with
    | error e =>
      rw [ha] at h
      cases h
    | ok va' =>
      simp only [ha] at h
      obtain ⟨s, rfl, hb, ht, htest⟩ := attach_ok h
      rw [← ht] at htest
      exact ⟨sno, s, rfl, by simp only [Op.gives, hf, ha, hb, ht], htest⟩

end Proc

namespace Op

variable {physseg : String → Option Physseg} {p p' : Proc} {op : Op}

/-- What a call that succeeds does: nothing, it clears a slot, or it gives to a segment a range whose
end was tested. -/
theorem run_ok (h : op.run physseg p = .ok p') :
    (p' = p ∧ op.gives p = none) ∨ (∃ i, p' = p.set i none ∧ op.gives p = none) ∨
      ∃ i s, p' = p.set i (some s) ∧ op.gives p = some (i, s.base, s.top) ∧ p.Tested i s.top := by
  cases op with
  | segattach attr name va len => exact .inr (.inr (Proc.segattach_ok h))
  | segdetach addr =>
    simp only [run, Proc.segdetach] at h
    split at h
    · cases h
    · rename_i i _
      split_ifs at h
      cases h
      exact .inr (.inl ⟨i, rfl, rfl⟩)
  | brk_ addr =>
    rcases Proc.ibrk_ok h with h | ⟨s, h⟩
    · exact .inl h
    · exact .inr (.inr ⟨DSEG, s, h⟩)
  | segbrk saddr addr =>
    simp only [run, Proc.segbrk] at h
    cases hin : p.inside saddr with
    | none =>
      rw [hin] at h
      cases h
    | some i =>
      have hg : (segbrk saddr addr).gives p = p.grown addr i := by rw [gives, hin, Option.bind_some]
      rw [hg]
      simp only [hin] at h
      split at h
      · cases h
      · split_ifs at h
        rcases Proc.ibrk_ok h with h | ⟨s, h⟩
        · exact .inl h
        · exact .inr (.inr ⟨i, s, h⟩)

/-- A call that succeeds keeps the ranges disjoint exactly when it swallows no segment. -/
theorem disjoint_iff (hd : p.Disjoint) (h : op.run physseg p = .ok p') :
    p'.Disjoint ↔ op.Unswallowed physseg p := by
  have hok : (op.run physseg p).isOk := by rw [h]; rfl
  rcases run_ok h with ⟨rfl, hg⟩ | ⟨i, rfl, hg⟩ | ⟨i, s, rfl, hg, ht⟩
  · exact iff_of_true hd fun _ _ _ _ hs => by rw [hg] at hs; cases hs
  · exact iff_of_true (hd.clear i) fun _ _ _ _ hs => by rw [hg] at hs; cases hs
  · rw [hd.set_iff ht]
    constructor
    · intro hs _ j base top hj
      rw [hg] at hj
      cases hj
      exact hs
    · exact fun hu => hu hok i s.base s.top hg

theorem next_some (h : op.next physseg p = some p') : op.run physseg p = .ok p' ∨ p' = p := by
  unfold next at h
  split at h
  · rename_i hr
    cases h
    exact .inl hr
  · cases h
    exact .inr rfl
  · cases h

end Op

/-- In every run in which no call swallows a segment, the ranges are disjoint, and a call that
succeeds keeps them so exactly when it swallows none. -/
theorem disjoint_of_unswallowed {physseg : String → Option Physseg} {p : Proc}
    (h : ((calls physseg).restrict fun p op => op.Unswallowed physseg p).Reach p) :
    p.Disjoint ∧ ∀ (op : Op) p', op.run physseg p = .ok p' →
      (p'.Disjoint ↔ op.Unswallowed physseg p) := by
  have hinv : ((calls physseg).restrict fun p op => op.Unswallowed physseg p).Inductive
      Proc.Disjoint := by
    refine ⟨fun _ h => h, fun p op p' hd hs => ?_⟩
    rcases Op.next_some hs.1 with hr | rfl
    · exact (Op.disjoint_iff hd hr).mpr hs.2
    · exact hd
  have hd := hinv.reach h
  exact ⟨hd, fun op p' hr => Op.disjoint_iff hd hr⟩

/-! ## A segment that is swallowed -/

/-- A text, a data segment with pages of 16K, and the stack. -/
private def fresh : Proc where
  seg i :=
    if i = SSEG then some ⟨SG_STACK, 0x7ffffefe0000, 0x7fffffff0000, 14⟩
    else if i = TSEG then some ⟨SG_TEXT, 0x200000, 0x400000, 21⟩
    else if i = DSEG then some ⟨SG_DATA, 0x400000, 0x404000, 14⟩
    else none

/-- The table that the kernel is configured with. -/
private def kinds (name : String) : Option Physseg :=
  if name = "shared" then some ⟨SG_SHARED, SEGMAXSIZE⟩
  else if name = "memory" then some ⟨SG_DATA, SEGMAXSIZE⟩
  else none

theorem fresh_seg {i : Fin NSEG} {s : Segment} (h : fresh.seg i = some s) :
    (i = SSEG ∧ s.base = 0x7ffffefe0000 ∧ s.top = 0x7fffffff0000) ∨
    (i = TSEG ∧ s.base = 0x200000 ∧ s.top = 0x400000) ∨
    (i = DSEG ∧ s.base = 0x400000 ∧ s.top = 0x404000) := by
  simp only [fresh] at h
  split_ifs at h with h₁ h₂ h₃
  · cases h
    exact .inl ⟨h₁, rfl, rfl⟩
  · cases h
    exact .inr (.inl ⟨h₂, rfl, rfl⟩)
  · cases h
    exact .inr (.inr ⟨h₃, rfl, rfl⟩)

theorem fresh_disjoint : fresh.Disjoint := by
  intro i j s t hij hs ht x
  rcases fresh_seg hs with ⟨rfl, hb, he⟩ | ⟨rfl, hb, he⟩ | ⟨rfl, hb, he⟩ <;>
    rcases fresh_seg ht with ⟨rfl, hb', he'⟩ | ⟨rfl, hb', he'⟩ | ⟨rfl, hb', he'⟩ <;>
    first
    | exact absurd rfl hij
    | (rw [hb, he, hb', he']; bv_omega)

/-- A page of shared memory is attached above the data, and the data grows past it. -/
private def pastShared : List Op :=
  [.segattach 0 "shared" 0x500000 0x1000, .brk_ 0x600000]

theorem pastShared_ends : (pastShared.foldlM (Op.next kinds) fresh).map (fun p =>
    ((p.seg DSEG).map fun s => (s.base, s.top), (p.seg 4).map fun s => (s.base, s.top))) =
    some (some (0x400000, 0x600000), some (0x500000, 0x501000)) := by
  decide +kernel

/-- The range of the data segment swallows the segment that was attached. -/
theorem segments_overlap : ∃ p, (calls kinds).Reach p ∧ ¬ p.Disjoint := by
  obtain ⟨p, hp, he⟩ := Option.map_eq_some_iff.mp pastShared_ends
  refine ⟨p, Lts.Reach.exec (fun _ _ _ h => h) ⟨[], .init fresh_disjoint⟩ hp, fun hd => ?_⟩
  simp only [Prod.mk.injEq, Option.map_eq_some_iff] at he
  obtain ⟨⟨s, hs, hsb, hst⟩, t, ht, htb, htt⟩ := he
  refine hd DSEG 4 s t (by decide) hs ht 0x500000 ?_
  rw [hsb, hst, htb, htt]
  decide

theorem shared_unswallowed :
    (Op.segattach 0 "shared" 0x500000 0x1000).Unswallowed kinds fresh := by
  intro _ i base top hg
  have hg' : (Op.segattach 0 "shared" 0x500000 0x1000).gives fresh =
      some (4, 0x500000, 0x501000) := by decide +kernel
  rw [hg'] at hg
  cases hg
  intro j t _ ht _ hin
  rcases fresh_seg ht with ⟨-, hb, he⟩ | ⟨-, hb, he⟩ | ⟨-, hb, he⟩ <;>
    (rw [he] at hin; exact absurd hin (by decide))

theorem disjoint_of_unswallowed_shared : ∃ p,
    (Op.segattach 0 "shared" 0x500000 0x1000).next kinds fresh = some p ∧ p.Disjoint := by
  cases hn : (Op.segattach 0 "shared" 0x500000 0x1000).next kinds fresh with
  | none => exact absurd hn (by decide +kernel)
  | some p =>
    exact ⟨p, rfl, (disjoint_of_unswallowed
      (.step ⟨[], .init fresh_disjoint⟩ ⟨hn, shared_unswallowed⟩)).1⟩

end NixMark.Seg
