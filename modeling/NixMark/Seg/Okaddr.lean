import Mathlib.Algebra.Order.Ring.Int
import NixMark.Lib.While
import NixMark.Lib.Words
import NixMark.Seg.Pages

/-!
# Checking a buffer of the user (`port/fault.c`, `okaddr`)

The buffer is worked off from segment to segment, and in each it is touched at its first byte and
then once for each size of a page.

* `Okaddr`, `okround`: the state of the loop, and a round of it.
* `reaches_pages`: when the steps of a page, from `a` on, come into every page up to `a+n`.
* `Checked`: what holds between two rounds.
-/

namespace NixMark.Seg

open Lib

def SG_RONLY : BitVec 16 := 0x20

/-- The addresses that the inner loop touches from `q` up to `e`; every step is at least a byte. -/
def touches (s : Segment) (e : Uintptr) : Nat → Uintptr → List Uintptr
  | 0, _ => []
  | n + 1, q => if q < e then q :: touches s e n (q + s.pgsize) else []

/-- The state of `okaddr`, with what it touched. -/
structure Okaddr where
  tot : Int
  touched : List Uintptr

/-- A round of the loop of `okaddr`. -/
def okround (p : Proc) (addr : Uintptr) (len : Int) (write : Bool) (o : Okaddr) :
    Round Okaddr (Int × List Uintptr) :=
  if o.tot < len then
    let a := addr + BitVec.ofInt 64 o.tot
    match p.lookup a with
    | none => .done (0, o.touched)
    | some s =>
      if write ∧ s.type &&& SG_RONLY ≠ 0 then .done (0, o.touched)
      else
        let n :=
          if addr + BitVec.ofInt 64 len > s.top then long (s.top - a).toInt else long (len - o.tot)
        let e := a + BitVec.ofInt 64 n
        .next ⟨long (o.tot + n), o.touched ++ touches s e (e - a).toNat a⟩
  else .done (1, o.touched)

/-- `okaddr`, with the addresses that it touches. -/
def okaddr (p : Proc) (addr : Uintptr) (len : Int) (write : Bool) (r : Int × List Uintptr) : Prop :=
  Ends (okround p addr len write) ⟨0, []⟩ r

/-! ## Steps of a page -/

/-- The steps of `k` bytes from `a` on come into every block up to `a+n` exactly when the offsets of
`a` and of the last byte do not carry. -/
theorem reaches_pages {k a n : Nat} (hk : 0 < k) (hn : 0 < n) :
    (∀ y, a ≤ y → y < a + n → ∃ i, a + i * k < a + n ∧ (a + i * k) / k = y / k) ↔
      a % k + (n - 1) % k < k := by
  have hstep (i : Nat) : (a + i * k) / k = a / k + i := Nat.add_mul_div_right a i hk
  have hin (i : Nat) : a + i * k < a + n ↔ i ≤ (n - 1) / k := by
    rw [Nat.le_div_iff_mul_le hk]
    omega
  have hlast := Nat.add_div (a := a) (b := n - 1) hk
  constructor
  · intro h
    by_contra hcarry
    obtain ⟨i, hi, hy⟩ := h (a + (n - 1)) (Nat.le_add_right ..) (by omega)
    rw [if_pos (by omega)] at hlast
    rw [hin] at hi
    rw [hstep] at hy
    omega
  · intro hcarry y hy hyn
    rw [if_neg (by omega)] at hlast
    have h₁ : a / k ≤ y / k := Nat.div_le_div_right hy
    have h₂ : y / k ≤ (a + (n - 1)) / k := Nat.div_le_div_right (by omega)
    refine ⟨y / k - a / k, (hin _).mpr (by omega), ?_⟩
    rw [hstep]
    omega

variable {p : Proc} {addr : Uintptr} {len : Int} {write : Bool} {s : Segment}

/-- The inner loop touches the steps of a page. -/
theorem mem_touches (hs : s.Sound) {e z : Uintptr} (he : e.toNat + 2 ^ 21 ≤ 2 ^ 64) :
    ∀ {n : Nat} {q : Uintptr}, e.toNat ≤ q.toNat + n →
      (z ∈ touches s e n q ↔ ∃ i, z.toNat = q.toNat + i * 2 ^ s.pgszlg2 ∧ z < e) := by
  have hP := hs.pgsize
  have hle := hs.pgsize_le
  have hpos := Nat.two_pow_pos s.pgszlg2
  intro n
  induction n with
  | zero =>
    intro q hq
    refine iff_of_false List.not_mem_nil ?_
    rintro ⟨i, hi, hz⟩
    bv_omega
  | succ n ih =>
    intro q hq
    rw [touches]
    by_cases hlt : q < e
    · have hnext : (q + s.pgsize).toNat = q.toNat + 2 ^ s.pgszlg2 := by
        rw [← hP] at hle ⊢
        bv_omega
      rw [if_pos hlt, List.mem_cons, ih (by omega), hnext]
      constructor
      · rintro (rfl | ⟨i, hi, hz⟩)
        · exact ⟨0, by omega, hlt⟩
        · exact ⟨i + 1, by rw [hi, Nat.succ_mul]; omega, hz⟩
      · rintro ⟨i, hi, hz⟩
        cases i with
        | zero => exact .inl (BitVec.eq_of_toNat_eq (by omega))
        | succ i => exact .inr ⟨i, by rw [hi, Nat.succ_mul]; omega, hz⟩
    · rw [if_neg hlt]
      refine iff_of_false List.not_mem_nil ?_
      rintro ⟨i, hi, hz⟩
      bv_omega

/-! ## A round -/

/-- The byte `y` is in a segment, and in one that may be written when the call is for writing. -/
def Proc.Allows (p : Proc) (write : Bool) (y : Uintptr) : Prop :=
  ∃ i s, p.seg i = some s ∧ (s.base ≤ y ∧ y < s.top) ∧ (write = true → s.type &&& SG_RONLY = 0)

theorem Proc.Disjoint.lookup (hd : p.Disjoint) {i : Fin NSEG} {y : Uintptr} (hi : p.seg i = some s)
    (hy : s.base ≤ y ∧ y < s.top) : p.lookup y = some s := by
  have hin : (p.inside y).isSome := by
    refine List.find?_isSome.mpr ⟨i, List.mem_finRange i, ?_⟩
    rw [hi, Option.any_some, Bool.and_eq_true, decide_eq_true_eq, decide_eq_true_eq]
    exact hy
  obtain ⟨t, ht⟩ := lookup_of_inside hin
  obtain ⟨⟨j, hj⟩, hyt⟩ := lookup_some ht
  by_cases hij : i = j
  · subst hij
    rw [ht, ← hj, hi]
  · exact absurd ⟨hy, hyt⟩ (hd i j s t hij hi hj y)

/-- A round in a segment works off what is left, up to the top of the segment. -/
theorem okround_next {o : Okaddr} {a e : Uintptr} {n : Nat} (ha : (a.toNat : Int) = addr.toNat + o.tot)
    (h0 : 0 ≤ o.tot) (hlt : o.tot < len) (hlen : len < 2 ^ 31) (hs : p.lookup a = some s)
    (hsound : s.Sound) (hw : write = true → s.type &&& SG_RONLY = 0)
    (hn : n = min (len - o.tot).toNat (s.top.toNat - a.toNat)) (he : e.toNat = a.toNat + n) :
    okround p addr len write o = .next ⟨o.tot + n, o.touched ++ touches s e (e - a).toNat a⟩ := by
  obtain ⟨tot, touched⟩ := o
  obtain ⟨T, rfl⟩ := Int.eq_ofNat_of_zero_le h0
  obtain ⟨L, rfl⟩ := Int.eq_ofNat_of_zero_le (Int.le_of_lt (Int.lt_of_le_of_lt h0 hlt))
  have htop := hsound.top_lt
  have hat := (lookup_some hs).2.2
  dsimp only at *
  have hadd : addr + BitVec.ofNat 64 T = a := by bv_omega
  have hend : (addr + BitVec.ofNat 64 L).toNat = addr.toNat + L := by bv_omega
  have hnle : n < 2 ^ 31 := by omega
  have hlen' : (if addr + BitVec.ofNat 64 L > s.top then long (s.top - a).toInt
      else long ((L : Int) - T)) = n := by
    by_cases hpast : addr + BitVec.ofNat 64 L > s.top
    · have hsub : (s.top - a).toNat = n := by bv_omega
      rw [if_pos hpast, BitVec.toInt_eq_toNat_of_lt (by omega), hsub]
      exact long_eq (by omega) (by omega)
    · have hle : addr.toNat + L ≤ s.top.toNat := by bv_omega
      rw [if_neg hpast, long_eq (by omega) (by omega)]
      omega
  have heq : a + BitVec.ofNat 64 n = e := by bv_omega
  unfold okround
  simp only [BitVec.ofInt_natCast, if_pos hlt, hadd, hs, hlen', heq]
  rw [if_neg fun hc => hc.2 (hw hc.1), long_eq (by omega) (by omega)]

/-! ## The loop -/

/-- The addresses from `addr` on, `n` of them. -/
def InRange (addr : Uintptr) (n : Int) (y : Uintptr) : Prop :=
  addr ≤ y ∧ (y.toNat : Int) < addr.toNat + n

/-- Every page with a byte of the range was touched. -/
def Touched (p : Proc) (addr : Uintptr) (n : Int) (touched : List Uintptr) : Prop :=
  ∀ y s, InRange addr n y → p.lookup y = some s →
    ∃ z ∈ touched, z.toNat / 2 ^ s.pgszlg2 = y.toNat / 2 ^ s.pgszlg2

/-- When one segment holds the buffer, the offsets of its first byte and of its last byte from the
first do not carry over a page. -/
def NoCarry (p : Proc) (addr : Uintptr) (len : Int) (write : Bool) : Prop :=
  ∀ s, p.lookup addr = some s → (write = true → s.type &&& SG_RONLY = 0) → 0 < len →
    addr.toNat + len ≤ s.top.toNat →
    addr.toNat % 2 ^ s.pgszlg2 + (len.toNat - 1) % 2 ^ s.pgszlg2 < 2 ^ s.pgszlg2

/-- Between two rounds: what was worked off may be accessed, and a further piece starts with a page. -/
structure Checked (p : Proc) (addr : Uintptr) (len : Int) (write : Bool) (o : Okaddr) : Prop where
  nonneg : 0 ≤ o.tot
  le : o.tot ≤ len ∨ o.tot = 0
  fits : 0 < o.tot → (addr.toNat : Int) + o.tot < 2 ^ 64 - 2 ^ 32
  good : ∀ y, InRange addr o.tot y → p.Allows write y
  inside : ∀ z ∈ o.touched, InRange addr o.tot z
  start : 0 < o.tot → o.tot < len → ∀ (a : Uintptr) s, (a.toNat : Int) = addr.toNat + o.tot →
    p.lookup a = some s → a.toNat % 2 ^ s.pgszlg2 = 0
  pages : NoCarry p addr len write → Touched p addr o.tot o.touched

/-- The value that the claim is about. -/
structure Answer (p : Proc) (addr : Uintptr) (len : Int) (write : Bool) (r : Int × List Uintptr) :
    Prop where
  value : r.1 = 1 ↔ ∀ y, InRange addr len y → p.Allows write y
  inside : r.1 = 1 → ∀ z ∈ r.2, InRange addr len z

/-- A piece that goes up to the top of a segment ends with a page. -/
theorem nocarry_of_top (hs : s.Sound) {a n : Nat} (hn : 0 < n) (hend : a + n = s.top.toNat) :
    a % 2 ^ s.pgszlg2 + (n - 1) % 2 ^ s.pgszlg2 < 2 ^ s.pgszlg2 := by
  have hpos := Nat.two_pow_pos s.pgszlg2
  have h₁ := Nat.mod_lt a hpos
  have h₂ := Nat.mod_lt (n - 1) hpos
  have hlast : (a + (n - 1)) % 2 ^ s.pgszlg2 = 2 ^ s.pgszlg2 - 1 := by
    obtain ⟨t, ht⟩ := hs.top
    have ht0 : t ≠ 0 := by
      rintro rfl
      omega
    obtain ⟨t, rfl⟩ := Nat.exists_eq_succ_of_ne_zero ht0
    have hsum : a + (n - 1) = 2 ^ s.pgszlg2 * t + (2 ^ s.pgszlg2 - 1) := by
      rw [Nat.mul_succ] at ht
      omega
    rw [hsum, Nat.mul_add_mod, Nat.mod_eq_of_lt (by omega)]
  rw [Nat.add_mod] at hlast
  by_contra hge
  rw [Nat.mod_eq_sub_mod (by omega), Nat.mod_eq_of_lt (by omega)] at hlast
  omega

/-- The segment at the top of another starts there. -/
theorem Proc.Disjoint.base_eq (hd : p.Disjoint) {y a : Uintptr} {t : Segment}
    (hs : p.lookup y = some s) (ha : a = s.top) (ht : p.lookup a = some t) : t.base = a := by
  obtain ⟨⟨i, hi⟩, hy⟩ := lookup_some hs
  obtain ⟨⟨j, hj⟩, hat⟩ := lookup_some ht
  subst ha
  by_contra hne
  -- the last byte of the segment below
  have hlast : p.lookup (s.top - 1) = some s := hd.lookup hi (by bv_omega)
  have hother : p.lookup (s.top - 1) = some t := hd.lookup hj (by bv_omega)
  rw [hlast] at hother
  cases hother
  exact absurd hat.2 (by bv_omega)

theorem Checked.round (hp : p.Sound) (hd : p.Disjoint) (hlen : len < 2 ^ 31) {o : Okaddr}
    (h : Checked p addr len write o) :
    (okround p addr len write o).All
      (fun o' => Checked p addr len write o' ∧ (len - o'.tot).toNat < (len - o.tot).toNat)
      (fun r => Answer p addr len write r ∧
        (r.1 = 1 → NoCarry p addr len write → Touched p addr len r.2)) := by
  have h0 := h.nonneg
  by_cases hlt : o.tot < len
  · -- the byte that the round looks at
    have hfits : (addr.toNat : Int) + o.tot < 2 ^ 64 := by
      by_cases hz : o.tot = 0
      · omega
      · have := h.fits (by omega)
        omega
    obtain ⟨a, ha⟩ : ∃ a : Uintptr, (a.toNat : Int) = addr.toNat + o.tot := by
      refine ⟨BitVec.ofNat 64 (addr.toNat + o.tot.toNat), ?_⟩
      rw [BitVec.toNat_ofNat]
      omega
    have hin : InRange addr len a := ⟨by bv_omega, by omega⟩
    have hadd : addr + BitVec.ofInt 64 o.tot = a := by
      obtain ⟨T, hT⟩ := Int.eq_ofNat_of_zero_le h0
      rw [hT] at ha ⊢
      rw [BitVec.ofInt_natCast]
      bv_omega
    by_cases hok : ∃ s, p.lookup a = some s ∧ (write = true → s.type &&& SG_RONLY = 0)
    · obtain ⟨s, hs, hw⟩ := hok
      obtain ⟨⟨i, hi⟩, hb, ht⟩ := lookup_some hs
      have hsound := hp i s hi
      have htop := hsound.top_lt
      have ht' : a.toNat < s.top.toNat := ht
      generalize hn : min (len - o.tot).toNat (s.top.toNat - a.toNat) = n
      have hn0 : 0 < n := by omega
      have he : (BitVec.ofNat 64 (a.toNat + n)).toNat = a.toNat + n := by bv_omega
      rw [okround_next ha h0 hlt hlen hs hsound hw hn.symm he]
      have hmem (z : Uintptr) := mem_touches (z := z) (q := a)
        (n := (BitVec.ofNat 64 (a.toNat + n) - a).toNat) hsound
        (e := BitVec.ofNat 64 (a.toNat + n)) (by omega) (by bv_omega)
      generalize BitVec.ofNat 64 (a.toNat + n) = e at he hmem
      -- the bytes of the piece are in the segment
      have hpiece {y : Uintptr} (hy : InRange addr (o.tot + n) y) (hya : a ≤ y) :
          p.lookup y = some s := by
        have hy₂ := hy.2
        exact hd.lookup hi ⟨by bv_omega, by bv_omega⟩
      have hsplit {y : Uintptr} (hy : InRange addr (o.tot + n) y) (hya : ¬ a ≤ y) :
          InRange addr o.tot y := ⟨hy.1, by bv_omega⟩
      refine ⟨⟨by dsimp only; omega, .inl (by dsimp only; omega), fun _ => by dsimp only; omega,
        fun y hy => ?_, fun z hz => ?_, fun _ hlt' a' s' ha' hs' => ?_, fun hcond y s' hy hs' => ?_⟩,
        by dsimp only; omega⟩
      · by_cases hya : a ≤ y
        · obtain ⟨⟨j, hj⟩, hin⟩ := lookup_some (hpiece hy hya)
          exact ⟨j, s, hj, hin, hw⟩
        · exact h.good y (hsplit hy hya)
      · rcases List.mem_append.mp hz with hz | hz
        · have hin := h.inside z hz
          exact ⟨hin.1, by have := hin.2; dsimp only; omega⟩
        · obtain ⟨i, hzi, hze⟩ := (hmem z).mp hz
          exact ⟨by bv_omega, by dsimp only; bv_omega⟩
      · dsimp only at hlt' ha'
        have htopa : a' = s.top := by bv_omega
        have hbase := hd.base_eq hs htopa hs'
        obtain ⟨⟨j, hj⟩, -⟩ := lookup_some hs'
        rw [← hbase]
        exact Nat.mod_eq_zero_of_dvd (hp j s' hj).base
      · dsimp only at hy
        by_cases hya : a ≤ y
        · rw [hpiece hy hya] at hs'
          cases hs'
          have hcarry : a.toNat % 2 ^ s.pgszlg2 + (n - 1) % 2 ^ s.pgszlg2 < 2 ^ s.pgszlg2 := by
            by_cases hz : o.tot = 0
            · have haddr : a = addr := BitVec.eq_of_toNat_eq (by omega)
              by_cases hone : addr.toNat + len ≤ s.top.toNat
              · have hnlen : n = len.toNat := by omega
                rw [hnlen, haddr]
                exact hcond s (haddr ▸ hs) hw (by omega) hone
              · exact nocarry_of_top hsound hn0 (by omega)
            · rw [h.start (by omega) hlt a s ha hs, Nat.zero_add]
              exact Nat.mod_lt _ (Nat.two_pow_pos _)
          obtain ⟨k, hk, hpage⟩ := (reaches_pages (Nat.two_pow_pos _) hn0).mpr hcarry y.toNat hya
            (by have := hy.2; omega)
          have hz : (BitVec.ofNat 64 (a.toNat + k * 2 ^ s.pgszlg2)).toNat =
              a.toNat + k * 2 ^ s.pgszlg2 := by
            rw [BitVec.toNat_ofNat]
            omega
          refine ⟨BitVec.ofNat 64 (a.toNat + k * 2 ^ s.pgszlg2), ?_, by rw [hz, hpage]⟩
          refine List.mem_append_right _ ((hmem _).mpr ⟨k, hz, ?_⟩)
          change (BitVec.ofNat 64 (a.toNat + k * 2 ^ s.pgszlg2)).toNat < e.toNat
          omega
        · obtain ⟨z, hz, hpage⟩ := h.pages hcond y s' (hsplit hy hya) hs'
          exact ⟨z, List.mem_append_left _ hz, hpage⟩
    · -- no segment allows the access
      have hno : ¬ p.Allows write a := by
        rintro ⟨i, s, hi, hy, hw⟩
        exact hok ⟨s, hd.lookup hi hy, hw⟩
      have hdone : okround p addr len write o = .done (0, o.touched) := by
        unfold okround
        simp only [if_pos hlt, hadd]
        cases hl : p.lookup a with
        | none => rfl
        | some s =>
          have hro : write = true ∧ s.type &&& SG_RONLY ≠ 0 := by
            by_contra hc
            refine hok ⟨s, hl, fun hw => ?_⟩
            by_contra hne
            exact hc ⟨hw, hne⟩
          simp only [if_pos hro]
      rw [hdone]
      have hne : ((0 : Int), o.touched).1 ≠ 1 := Int.zero_ne_one
      exact ⟨⟨iff_of_false hne fun hall => hno (hall a hin), fun h1 => absurd h1 hne⟩,
        fun h1 => absurd h1 hne⟩
  · have hdone : okround p addr len write o = .done (1, o.touched) := by
      unfold okround
      rw [if_neg hlt]
    have hle := h.le
    rw [hdone]
    refine ⟨⟨iff_of_true rfl fun y hy => h.good y ⟨hy.1, by have := hy.2; omega⟩, fun _ z hz => ?_⟩,
      fun _ hcond y s hy hs => h.pages hcond y s ⟨hy.1, by have := hy.2; omega⟩ hs⟩
    have hin := h.inside z hz
    exact ⟨hin.1, by have := hin.2; have := hin.1; bv_omega⟩

variable (p addr len write) in
theorem okaddr_ends (hp : p.Sound) (hd : p.Disjoint) (hlen : len < 2 ^ 31) :
    ∃ r, okaddr p addr len write r ∧ Answer p addr len write r ∧
      (r.1 = 1 → NoCarry p addr len write → Touched p addr len r.2) := by
  refine ends_of (P := Checked p addr len write) (fun o => (len - o.tot).toNat)
    (fun o ho => ho.round hp hd hlen) ⟨Int.le_refl 0, .inr rfl, fun h => absurd h (by decide), ?_,
      fun z hz => absurd hz List.not_mem_nil, fun h => absurd h (by decide), ?_⟩
  · intro y hy
    have := hy.1
    have := hy.2
    bv_omega
  · intro _ y s hy
    have := hy.1
    have := hy.2
    bv_omega

/-- The value is 1 exactly when every byte may be accessed, and then every page of the buffer was
touched, and nothing outside. -/
def Validates (p : Proc) (addr : Uintptr) (len : Int) (write : Bool) : Prop :=
  ∃ r, okaddr p addr len write r ∧
    (r.1 = 1 ↔ ∀ y, InRange addr len y → p.Allows write y) ∧
    (r.1 = 1 → Touched p addr len r.2 ∧ ∀ z ∈ r.2, InRange addr len z)

/-- `okaddr` does what is expected of it exactly when a buffer in a single segment does not carry. -/
theorem okaddr_exact (p : Proc) (addr : Uintptr) (len : Int) (write : Bool) (hp : p.Sound)
    (hd : p.Disjoint) (hlen : len < 2 ^ 31) :
    Validates p addr len write ↔ NoCarry p addr len write := by
  obtain ⟨r, hr, hanswer, htouched⟩ := okaddr_ends p addr len write hp hd hlen
  constructor
  · rintro ⟨r', hr', -, hall⟩ s hs hw h0 hone
    cases hr.unique hr'
    obtain ⟨⟨i, hi⟩, hb, ht⟩ := lookup_some hs
    have hsound := hp i s hi
    have htop := hsound.top_lt
    have hin {y : Uintptr} (hy : InRange addr len y) : s.base ≤ y ∧ y < s.top := by
      have := hy.1
      have := hy.2
      exact ⟨by bv_omega, by bv_omega⟩
    -- a single round works the buffer off
    obtain ⟨L, rfl⟩ := Int.eq_ofNat_of_zero_le (Int.le_of_lt h0)
    have he : (BitVec.ofNat 64 (addr.toNat + L)).toNat = addr.toNat + L := by bv_omega
    have hfirst : okround p addr L write ⟨0, []⟩ = .next ⟨0 + L, [] ++ touches s
        (BitVec.ofNat 64 (addr.toNat + L)) (BitVec.ofNat 64 (addr.toNat + L) - addr).toNat addr⟩ :=
      okround_next (by dsimp only; omega) (Int.le_refl 0) h0 hlen hs hsound hw
        (by dsimp only; omega) he
    have hmem (z : Uintptr) := mem_touches (z := z) (q := addr)
      (n := (BitVec.ofNat 64 (addr.toNat + L) - addr).toNat) hsound
      (e := BitVec.ofNat 64 (addr.toNat + L)) (by omega) (by bv_omega)
    generalize BitVec.ofNat 64 (addr.toNat + L) = e at he hfirst hmem
    have hlast : okround p addr L write ⟨0 + L, [] ++ touches s e (e - addr).toNat addr⟩ =
        .done (1, [] ++ touches s e (e - addr).toNat addr) := by
      unfold okround
      rw [if_neg (by dsimp only; omega)]
    have hends := (ends_next hfirst).mpr ((ends_done hlast).mpr rfl)
    cases hends.unique hr
    refine (reaches_pages (Nat.two_pow_pos _) (by omega)).mp fun y hy hyl => ?_
    have hyv : (BitVec.ofNat 64 y).toNat = y := by bv_omega
    have hyr : InRange addr L (BitVec.ofNat 64 y) := ⟨by bv_omega, by omega⟩
    obtain ⟨z, hz, hpage⟩ := (hall rfl).1 (BitVec.ofNat 64 y) s hyr (hd.lookup hi (hin hyr))
    obtain ⟨k, hk, hze⟩ := (hmem z).mp hz
    have hze : z.toNat < e.toNat := hze
    rw [hk, hyv] at hpage
    exact ⟨k, by rw [Int.toNat_natCast]; omega, hpage⟩
  · exact fun hcond => ⟨r, hr, hanswer.value, fun h1 => ⟨htouched h1 hcond, hanswer.inside h1⟩⟩

/-! ## A process with two pages of data -/

private def data : Segment := ⟨SG_DATA, 0x400000, 0x408000, 14⟩

private def twopages : Proc where
  seg i := if i = DSEG then some data else none

theorem twopages_seg {i : Fin NSEG} {s : Segment} (h : twopages.seg i = some s) :
    i = DSEG ∧ s = data := by
  unfold twopages at h
  dsimp only at h
  split at h
  · rename_i hi
    cases h
    exact ⟨hi, rfl⟩
  · cases h

theorem twopages_sound : twopages.Sound := by
  intro i s h
  rw [(twopages_seg h).2]
  exact ⟨by decide, by decide, by decide, by decide, by decide, by decide⟩

theorem twopages_disjoint : twopages.Disjoint := by
  intro i j s t hij hs ht
  exact absurd ((twopages_seg hs).1.trans (twopages_seg ht).1.symm) hij

theorem okaddr_exact_twopages : Validates twopages 0x400000 0x5000 true := by
  refine (okaddr_exact twopages 0x400000 0x5000 true twopages_sound twopages_disjoint
    (by decide)).mpr fun s hs _ _ _ => ?_
  have hdata : twopages.lookup 0x400000 = some data := rfl
  rw [hdata] at hs
  cases hs
  decide

/-- Two bytes on both sides of the end of a page: the second page is not touched. -/
theorem okaddr_skips : ∃ p addr len write, Proc.Sound p ∧ p.Disjoint ∧ len < 2 ^ 31 ∧
    ¬ Validates p addr len write := by
  refine ⟨twopages, 0x403fff, 2, false, twopages_sound, twopages_disjoint, by decide, ?_⟩
  rintro ⟨r, hr, -, hall⟩
  have hrun : loop (okround twopages 0x403fff 2 false) 3 ⟨0, []⟩ = some (1, [0x403fff]) := by
    decide +kernel
  cases Ends.unique ⟨3, hrun⟩ hr
  obtain ⟨z, hz, hpage⟩ := (hall rfl).1 0x404000 data ⟨by decide, by decide⟩ rfl
  rw [List.mem_singleton.mp hz] at hpage
  exact absurd hpage (by decide)

end NixMark.Seg
