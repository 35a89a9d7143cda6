import NixMark.Lib.While
import NixMark.Seg.Pages

/-!
# Flushing a range (`port/sysseg.c`, `syssegflush`)

The range is worked off in chunks, which end at the end of what a `Pte` maps, or at the page in which
the range or the segment ends. The length that is left is a word.

* `Flush`, `flushround`: the state of the loops, and a round of them.
* `Reaches`: from segment to segment, a range ends in a segment.
* `Reaches.flushes`, `Reaches.fails`: the loop when the range ends with a page there, and when it
  does not.
-/

namespace NixMark.Seg

open Lib

/-- The state of `syssegflush`: `cur` is the segment at the label `more`, and the chunks are those that
were flushed. -/
structure Flush where
  cur : Option Segment
  addr : Uintptr
  len : BitVec 64
  chunks : List (Uintptr × BitVec 64)

/-- `l`: the length that is left, up to the top of the segment -/
def Segment.left (s : Segment) (addr : Uintptr) (len : BitVec 64) : BitVec 64 :=
  if addr + len > s.top then s.top - addr else len

/-- `pe-ps` -/
def Segment.chunk (s : Segment) (addr : Uintptr) (l : BitVec 64) : BitVec 64 :=
  let ps := (addr - s.base) &&& (s.ptemapmem - 1)
  let pe :=
    if s.ptemapmem - ps > l then (ps + l + s.pgsize - 1) &&& ~~~(s.pgsize - 1) else s.ptemapmem
  pe - ps

/-- A round of the loops of `syssegflush`. -/
def flushround (p : Proc) (f : Flush) :
    Round Flush (Except Err (List (Uintptr × BitVec 64))) :=
  match f.cur with
  | none =>
    if f.len > 0 then
      match p.lookup f.addr with
      | none => .done (.error .Ebadarg)
      | some s => .next { f with cur := some s }
    else .done (.ok f.chunks)
  | some s =>
    let chunk := s.chunk f.addr (s.left f.addr f.len)
    if chunk = 0 then .done (.error .Ebadarg)
    else
      let len := f.len - chunk
      let addr := f.addr + chunk
      .next
        { cur := if len > 0 ∧ addr < s.top then some s else none
          addr, len
          chunks := f.chunks ++ [(f.addr, chunk)] }

/-- `syssegflush`, with the chunks. -/
def syssegflush (p : Proc) (addr : Uintptr) (len : BitVec 64) :
    Except Err (List (Uintptr × BitVec 64)) → Prop :=
  Ends (flushround p) ⟨none, addr, len, []⟩

/-! ## A chunk -/

theorem and_not_toNat (x y : Uintptr) : (x &&& ~~~y).toNat = x.toNat - (x &&& y).toNat := by
  have hz : (x &&& y) &&& (x &&& ~~~y) = 0#64 := by
    ext i hi
    simp only [BitVec.getElem_and, BitVec.getElem_not, BitVec.getElem_zero]
    cases x[i] <;> cases y[i] <;> rfl
  have hor : (x &&& y) ||| (x &&& ~~~y) = x := by
    ext i hi
    simp only [BitVec.getElem_or, BitVec.getElem_and, BitVec.getElem_not]
    cases x[i] <;> cases y[i] <;> rfl
  have hadd := BitVec.add_eq_or_of_and_eq_zero _ _ hz
  rw [hor] at hadd
  have hle : (x &&& ~~~y).toNat ≤ x.toNat := by
    rw [BitVec.toNat_and]
    exact Nat.and_le_left
  bv_omega

/-- A mask of the pages. -/
theorem mask_toNat (x : Uintptr) {lg : Nat} {m : Uintptr} (hm : m.toNat = 2 ^ lg) :
    (x &&& (m - 1)).toNat = x.toNat % 2 ^ lg ∧
      (x &&& ~~~(m - 1)).toNat = down (2 ^ lg) x.toNat := by
  have hpos := Nat.two_pow_pos lg
  have hmask : (m - 1).toNat = 2 ^ lg - 1 := by
    rw [← hm] at hpos ⊢
    bv_omega
  have hmod : (x &&& (m - 1)).toNat = x.toNat % 2 ^ lg := by
    rw [BitVec.toNat_and, hmask, Nat.and_two_pow_sub_one_eq_mod]
  refine ⟨hmod, ?_⟩
  rw [and_not_toNat, hmod]
  have hdiv := Nat.div_add_mod x.toNat (2 ^ lg)
  rw [down, Nat.mul_comm]
  omega

namespace Segment

variable {s : Segment} {addr : Uintptr} {l : BitVec 64}

/-- How far a chunk may go: to the end of what a `Pte` maps. When the length `l` ends before that, the
chunk goes to the end of its page. -/
theorem Sound.chunk (h : s.Sound) (hb : s.base ≤ addr) (ht : addr < s.top) :
    ∃ r, (0 < r ∧ r ≤ 2 ^ 29 ∧ 2 ^ s.pgszlg2 ∣ addr.toNat + r) ∧ (r ≤ l.toNat ∧ (s.chunk addr l).toNat = r ∨
      l.toNat < r ∧
        (s.chunk addr l).toNat = up (2 ^ s.pgszlg2) (addr.toNat + l.toNat) - addr.toNat) := by
  have hP := h.pgsize
  have hM := h.ptemapmem
  have hpos := Nat.two_pow_pos s.pgszlg2
  have hMpos := Nat.two_pow_pos (8 + s.pgszlg2)
  have hPle := h.pgsize_le
  have hMP : 2 ^ (8 + s.pgszlg2) = 2 ^ s.pgszlg2 * 256 := by rw [Nat.add_comm, Nat.pow_add]
  have hps := (mask_toNat (addr - s.base) hM).1
  have hsub : (addr - s.base).toNat = addr.toNat - s.base.toNat := by bv_omega
  rw [hsub] at hps
  have hlt := Nat.mod_lt (addr.toNat - s.base.toNat) hMpos
  have hdiv := Nat.div_add_mod (addr.toNat - s.base.toNat) (2 ^ (8 + s.pgszlg2))
  have hb : s.base.toNat ≤ addr.toNat := hb
  have hx : addr.toNat = s.base.toNat + 2 ^ (8 + s.pgszlg2) *
      ((addr.toNat - s.base.toNat) / 2 ^ (8 + s.pgszlg2)) +
      (addr.toNat - s.base.toNat) % 2 ^ (8 + s.pgszlg2) := by omega
  have hc : 2 ^ s.pgszlg2 ∣ s.base.toNat + 2 ^ (8 + s.pgszlg2) *
      ((addr.toNat - s.base.toNat) / 2 ^ (8 + s.pgszlg2)) :=
    Nat.dvd_add h.base (Nat.dvd_mul_right_of_dvd ⟨256, hMP⟩ _)
  have hup (y : Nat) (hy : y ≤ 2 ^ (8 + s.pgszlg2)) : up (2 ^ s.pgszlg2) y ≤ 2 ^ (8 + s.pgszlg2) :=
    (up_le_iff hpos ⟨256, hMP⟩).mpr hy
  unfold Segment.chunk
  simp only
  generalize (addr - s.base) &&& (s.ptemapmem - 1) = ps at hps ⊢
  generalize hq : (addr.toNat - s.base.toNat) / 2 ^ (8 + s.pgszlg2) = q at hx hc
  rw [← hps] at hx hlt
  have hr : (s.ptemapmem - ps).toNat = 2 ^ (8 + s.pgszlg2) - ps.toNat := by
    rw [← hM] at hlt ⊢
    bv_omega
  have hend : addr.toNat + (2 ^ (8 + s.pgszlg2) - ps.toNat) =
      s.base.toNat + 2 ^ (8 + s.pgszlg2) * q + 2 ^ (8 + s.pgszlg2) := by omega
  refine ⟨2 ^ (8 + s.pgszlg2) - ps.toNat, ⟨by omega, by omega, ?_⟩, ?_⟩
  · rw [hend]
    exact Nat.dvd_add hc ⟨256, hMP⟩
  by_cases hcmp : 2 ^ (8 + s.pgszlg2) - ps.toNat ≤ l.toNat
  · refine .inl ⟨hcmp, ?_⟩
    rw [if_neg, hr]
    change ¬ l.toNat < (s.ptemapmem - ps).toNat
    omega
  · refine .inr ⟨Nat.lt_of_not_le hcmp, ?_⟩
    have hround : (ps + l + s.pgsize - 1).toNat = ps.toNat + l.toNat + (2 ^ s.pgszlg2 - 1) := by
      rw [← hP] at hPle hpos ⊢
      bv_omega
    have hpe := (mask_toNat (ps + l + s.pgsize - 1) hP).2
    rw [hround] at hpe
    change _ = up (2 ^ s.pgszlg2) (ps.toNat + l.toNat) at hpe
    have hle := hup (ps.toNat + l.toNat) (by omega)
    have hge := le_up hpos (ps.toNat + l.toNat)
    rw [if_pos (by change l.toNat < (s.ptemapmem - ps).toNat; omega), hx, Nat.add_assoc,
      up_add hpos hc, ← hpe]
    rw [← hpe] at hle hge
    bv_omega

end Segment

/-! ## From segment to segment -/

/-- A range from `addr` on, followed from the top of a segment to the next, ends at `e` in the
segment `s`. -/
inductive Reaches (p : Proc) (e : Uintptr) : Uintptr → Segment → Prop where
  | here {addr : Uintptr} {s : Segment} : p.lookup addr = some s → e ≤ s.top → Reaches p e addr s
  | next {addr : Uintptr} {s t : Segment} : p.lookup addr = some s → s.top < e →
      Reaches p e s.top t → Reaches p e addr t

/-- Every byte of the range is in a segment. -/
def Covered (p : Proc) (addr : Uintptr) (len : BitVec 64) : Prop :=
  ∀ x : Uintptr, addr ≤ x → x.toNat < addr.toNat + len.toNat → (p.inside x).isSome

variable {len : BitVec 64}

/-- A range in the segments does not go past the last address. -/
theorem Covered.lt {p : Proc} {addr : Uintptr} (h : Covered p addr len) (hp : p.Sound) :
    addr.toNat + len.toNat < 2 ^ 64 := by
  by_contra hge
  obtain ⟨s, hs⟩ := lookup_of_inside (h (-1) (by bv_omega) (by bv_omega))
  obtain ⟨⟨i, hi⟩, -, ht⟩ := lookup_some hs
  have htop := (hp i s hi).top_lt
  bv_omega

theorem Covered.reaches {p : Proc} {addr e : Uintptr}
    (h : ∀ x, addr ≤ x → x < e → (p.inside x).isSome) (hlt : addr < e) :
    ∃ t, Reaches p e addr t := by
  generalize hm : e.toNat - addr.toNat = m
  induction m using Nat.strongRecOn generalizing addr with
  | ind m ih =>
    obtain ⟨s, hs⟩ := lookup_of_inside (h addr (Nat.le_refl _) hlt)
    obtain ⟨-, -, ht⟩ := lookup_some hs
    by_cases he : e ≤ s.top
    · exact ⟨s, .here hs he⟩
    · have hte : s.top < e := BitVec.not_le.mp he
      obtain ⟨t, hr⟩ := ih (e.toNat - s.top.toNat) (by bv_omega)
        (fun x hx => h x (by bv_omega)) hte rfl
      exact ⟨t, .next hs hte hr⟩

/-! ## The loop -/

variable {p : Proc} {addr e : Uintptr} {t : Segment}

/-- The chunks are the addresses from `addr` up to `a`. -/
def Tiles (addr a : Uintptr) (chunks : List (Uintptr × BitVec 64)) : Prop :=
  ∀ x : Nat, (∃ c ∈ chunks, c.1.toNat ≤ x ∧ x < c.1.toNat + c.2.toNat) ↔
    addr.toNat ≤ x ∧ x < a.toNat

variable {n : BitVec 64}

theorem Tiles.append {a : Uintptr} {chunks : List (Uintptr × BitVec 64)} (h : Tiles addr a chunks)
    (ha : addr ≤ a) (hn : a.toNat + n.toNat < 2 ^ 64) :
    Tiles addr (a + n) (chunks ++ [(a, n)]) := by
  intro x
  have hadd : (a + n).toNat = a.toNat + n.toNat := by bv_omega
  have ha : addr.toNat ≤ a.toNat := ha
  have hx := h x
  simp only [List.mem_append, List.mem_singleton, or_and_right, exists_or, exists_eq_left, hx, hadd]
  omega

/-- Before the end: the length that is left goes up to `e`, which is in the segment `t`. It is used up
only if a page ends there. -/
structure Before (p : Proc) (addr e : Uintptr) (t : Segment) (f : Flush) : Prop where
  le : addr ≤ f.addr
  sum : f.addr.toNat + f.len.toNat = e.toNat
  tiles : Tiles addr f.addr f.chunks
  last : f.len = 0 → 2 ^ t.pgszlg2 ∣ e.toNat
  idle : f.cur = none → f.len ≠ 0 → Reaches p e f.addr t
  busy : ∀ s, f.cur = some s → (s.Sound ∧ s.base ≤ f.addr ∧ f.addr < s.top) ∧ f.len ≠ 0 ∧
    (e ≤ s.top ∧ t = s ∨ s.top < e ∧ Reaches p e s.top t)

/-- Past the end: the length has wrapped around. -/
structure Past (e : Uintptr) (f : Flush) : Prop where
  lt : e < f.addr
  sum : f.addr.toNat + f.len.toNat = e.toNat + 2 ^ 64
  cur : ∀ s, f.cur = some s → s.Sound ∧ s.base ≤ f.addr ∧ f.addr < s.top

/-- The rounds get on: through the addresses, and from the loop to the label `more`. -/
def Flush.rest (f : Flush) : Nat :=
  2 * (2 ^ 64 - f.addr.toNat) + (if f.cur.isSome then 0 else 1)

variable {f : Flush}

theorem rest_lt {f' : Flush} {s : Segment} (hc : f.cur = some s) (h : f.addr.toNat < f'.addr.toNat) :
    f'.rest < f.rest := by
  unfold Flush.rest
  rw [hc, Option.isSome_some, if_pos rfl]
  split <;> bv_omega

/-- The state after a chunk of `n` bytes. -/
def Flush.after (f : Flush) (s : Segment) (n : BitVec 64) : Flush where
  cur := if f.len - n > 0 ∧ f.addr + n < s.top then some s else none
  addr := f.addr + n
  len := f.len - n
  chunks := f.chunks ++ [(f.addr, n)]

theorem flushround_some {s : Segment} (hc : f.cur = some s)
    (h : s.chunk f.addr (s.left f.addr f.len) ≠ 0) :
    flushround p f = .next (f.after s (s.chunk f.addr (s.left f.addr f.len))) := by
  unfold flushround
  rw [hc]
  simp only [if_neg h]
  rfl

theorem after_cur {s s' : Segment} (h : (f.after s n).cur = some s') :
    s' = s ∧ f.len - n ≠ 0 ∧ f.addr + n < s.top := by
  unfold Flush.after at h
  dsimp only at h
  split at h
  · rename_i hc
    cases h
    exact ⟨rfl, by bv_omega, hc.2⟩
  · cases h

theorem after_idle {s : Segment} (h : (f.after s n).cur = none) (hlen : f.len - n ≠ 0) :
    s.top ≤ f.addr + n := by
  unfold Flush.after at h
  dsimp only at h
  split at h
  · cases h
  · bv_omega

/-- A chunk within the length and the segment. -/
theorem Before.after {s : Segment} (h : Before p addr e t f) (hc : f.cur = some s)
    (hlen : n.toNat ≤ f.len.toNat) (htop : f.addr.toNat + n.toNat ≤ s.top.toNat)
    (hlast : n.toNat = f.len.toNat → 2 ^ t.pgszlg2 ∣ e.toNat) :
    Before p addr e t (f.after s n) := by
  obtain ⟨⟨hs, hb, ht⟩, hne, hend⟩ := h.busy s hc
  have hle := h.le
  have hsum := h.sum
  have hadd : (f.addr + n).toNat = f.addr.toNat + n.toNat := by bv_omega
  have hsub : (f.len - n).toNat = f.len.toNat - n.toNat := by bv_omega
  refine ⟨?_, ?_, h.tiles.append hle (by bv_omega), fun hz => ?_, fun hnone hne => ?_, fun s' hs' => ?_⟩
  · change addr ≤ f.addr + n
    bv_omega
  · change (f.addr + n).toNat + (f.len - n).toNat = _
    omega
  · have hz : f.len - n = 0 := hz
    exact hlast (by bv_omega)
  · have hne : f.len - n ≠ 0 := hne
    have hat := after_idle hnone hne
    have heq : f.addr + n = s.top := by bv_omega
    change Reaches p e (f.addr + n) t
    rcases hend with ⟨he, -⟩ | ⟨-, hr⟩
    · have hzero : f.len - n = 0 := by bv_omega
      exact absurd hzero hne
    · rw [heq]
      exact hr
  · obtain ⟨rfl, hne', hlt⟩ := after_cur hs'
    exact ⟨⟨hs, by change s'.base ≤ f.addr + n; bv_omega, hlt⟩, hne', hend⟩

theorem Before.round (hp : p.Sound) (h : Before p addr e t f) :
    (flushround p f).All
      (fun f' => (Before p addr e t f' ∨ ¬ 2 ^ t.pgszlg2 ∣ e.toNat ∧ Past e f') ∧ f'.rest < f.rest)
      (fun r => ∃ chunks, r = .ok chunks ∧ Tiles addr e chunks ∧ 2 ^ t.pgszlg2 ∣ e.toNat) := by
  have hsum := h.sum
  cases hc : f.cur with
  | none =>
    unfold flushround
    rw [hc]
    by_cases hlen : f.len > 0
    · simp only [if_pos hlen]
      -- the segment that is found is the one the range goes on in
      obtain ⟨s, hs, hend⟩ : ∃ s, p.lookup f.addr = some s ∧
          (e ≤ s.top ∧ t = s ∨ s.top < e ∧ Reaches p e s.top t) := by
        cases h.idle hc (by bv_omega) with
        | here hs he => exact ⟨t, hs, .inl ⟨he, rfl⟩⟩
        | next hs he hr => exact ⟨_, hs, .inr ⟨he, hr⟩⟩
      rw [hs]
      obtain ⟨⟨i, hi⟩, hin⟩ := lookup_some hs
      refine ⟨.inl ⟨h.le, hsum, h.tiles, h.last, (fun hn => by cases hn), fun s' hs' => ?_⟩, ?_⟩
      · cases hs'
        exact ⟨⟨hp i s hi, hin⟩, by change f.len ≠ 0; bv_omega, hend⟩
      · unfold Flush.rest
        rw [hc]
        exact Nat.lt_succ_self _
    · simp only [if_neg hlen]
      have he : f.addr = e := by bv_omega
      exact ⟨f.chunks, rfl, he ▸ h.tiles, h.last (by bv_omega)⟩
  | some s =>
    obtain ⟨⟨hs, hb, ht⟩, hne, hend⟩ := h.busy s hc
    have hadd : f.addr + f.len = e := by bv_omega
    have hleft : (s.left f.addr f.len).toNat =
        if e > s.top then s.top.toNat - f.addr.toNat else f.len.toNat := by
      unfold Segment.left
      rw [hadd]
      split
      · bv_omega
      · rfl
    obtain ⟨r, ⟨hr0, -, hrdvd⟩, hchunk⟩ := hs.chunk hb ht (l := s.left f.addr f.len)
    have hpos := Nat.two_pow_pos s.pgszlg2
    have htopeq := up_eq hpos hs.top
    have hlpos : 0 < (s.left f.addr f.len).toNat := by
      rw [hleft]
      split <;> bv_omega
    have hnpos : 0 < (s.chunk f.addr (s.left f.addr f.len)).toNat := by
      have hge := le_up hpos (f.addr.toNat + (s.left f.addr f.len).toNat)
      omega
    have hlle : (s.left f.addr f.len).toNat ≤ f.len.toNat ∧
        f.addr.toNat + (s.left f.addr f.len).toNat ≤ s.top.toNat := by
      rw [hleft]
      split <;> bv_omega
    -- a chunk is within what is left, or it goes on to the end of the last page
    have hcases : (s.chunk f.addr (s.left f.addr f.len)).toNat ≤ (s.left f.addr f.len).toNat ∧
          ((s.chunk f.addr (s.left f.addr f.len)).toNat = f.len.toNat → 2 ^ t.pgszlg2 ∣ e.toNat) ∨
        ((e ≤ s.top ∧ t = s) ∧ ¬ 2 ^ s.pgszlg2 ∣ e.toNat ∧
          (s.chunk f.addr (s.left f.addr f.len)).toNat =
            up (2 ^ s.pgszlg2) e.toNat - f.addr.toNat) := by
      rcases hchunk with ⟨hle, heq⟩ | ⟨-, heq⟩
      · refine .inl ⟨by omega, fun hall => ?_⟩
        rcases hend with ⟨he, rfl⟩ | ⟨he, -⟩
        · rw [← heq, hall, hsum] at hrdvd
          exact hrdvd
        · rw [if_pos he] at hleft
          exact absurd hall (by bv_omega)
      rcases hend with ⟨he, hts⟩ | ⟨he, -⟩
      · have hnot : ¬ e > s.top := by bv_omega
        rw [if_neg hnot] at hleft
        rw [hleft, hsum] at heq
        by_cases hdvd : 2 ^ s.pgszlg2 ∣ e.toNat
        · rw [up_eq hpos hdvd] at heq
          exact .inl ⟨by omega, fun _ => hts ▸ hdvd⟩
        · exact .inr ⟨⟨he, hts⟩, hdvd, heq⟩
      · have hgt : e > s.top := by bv_omega
        have hsumtop : f.addr.toNat + (s.top.toNat - f.addr.toNat) = s.top.toNat := by bv_omega
        rw [if_pos hgt] at hleft
        rw [hleft, hsumtop, htopeq] at heq
        exact .inl ⟨by omega, fun hall => absurd hall (by bv_omega)⟩
    rw [flushround_some hc (by bv_omega)]
    generalize s.chunk f.addr (s.left f.addr f.len) = n at hnpos hcases ⊢
    rcases hcases with ⟨hle, hlast⟩ | ⟨⟨he, rfl⟩, hdvd, heq⟩
    · refine ⟨.inl (h.after hc (by omega) (by omega) hlast), rest_lt hc ?_⟩
      change f.addr.toNat < (f.addr + n).toNat
      bv_omega
    · have hup : up (2 ^ t.pgszlg2) e.toNat ≤ t.top.toNat := (up_le_iff hpos hs.top).mpr he
      have hge := le_up hpos e.toNat
      have hne : up (2 ^ t.pgszlg2) e.toNat ≠ e.toNat := fun h => hdvd (h ▸ dvd_up _ _)
      have haddr : (f.addr + n).toNat = up (2 ^ t.pgszlg2) e.toNat := by bv_omega
      refine ⟨.inr ⟨hdvd, ?_, ?_, fun s' hs' => ?_⟩, rest_lt hc ?_⟩
      · change e < f.addr + n
        bv_omega
      · change (f.addr + n).toNat + (f.len - n).toNat = _
        bv_omega
      · obtain ⟨rfl, -, hlt⟩ := after_cur hs'
        exact ⟨hs, by change s'.base ≤ f.addr + n; bv_omega, hlt⟩
      · change f.addr.toNat < (f.addr + n).toNat
        bv_omega

theorem Past.round (hp : p.Sound) (h : Past e f) :
    (flushround p f).All (fun f' => Past e f' ∧ f'.rest < f.rest) (fun r => r = .error .Ebadarg) := by
  have hlt := h.lt
  have hsum := h.sum
  cases hc : f.cur with
  | none =>
    unfold flushround
    rw [hc]
    simp only
    rw [if_pos (by bv_omega)]
    cases hl : p.lookup f.addr with
    | none => exact rfl
    | some s =>
      obtain ⟨⟨i, hi⟩, hin⟩ := lookup_some hl
      refine ⟨⟨hlt, hsum, fun s' hs' => ?_⟩, ?_⟩
      · cases hs'
        exact ⟨hp i s hi, hin⟩
      · unfold Flush.rest
        rw [hc]
        exact Nat.lt_succ_self _
  | some s =>
    obtain ⟨hs, hb, ht⟩ := h.cur s hc
    have htop := hs.top_lt
    have hleft : s.left f.addr f.len = f.len := by
      unfold Segment.left
      rw [if_neg]
      bv_omega
    obtain ⟨r, ⟨hr0, hr, -⟩, hchunk⟩ := hs.chunk hb ht (l := f.len)
    have hn : (s.chunk f.addr f.len).toNat = r := by
      rcases hchunk with ⟨-, heq⟩ | ⟨hshort, -⟩
      · exact heq
      · exact absurd hshort (by bv_omega)
    rw [flushround_some hc (by rw [hleft]; bv_omega), hleft]
    generalize s.chunk f.addr f.len = n at hn ⊢
    refine ⟨⟨?_, ?_, fun s' hs' => ?_⟩, rest_lt hc ?_⟩
    · change e < f.addr + n
      bv_omega
    · change (f.addr + n).toNat + (f.len - n).toNat = _
      bv_omega
    · obtain ⟨rfl, -, hlt'⟩ := after_cur hs'
      exact ⟨hs, by change s'.base ≤ f.addr + n; bv_omega, hlt'⟩
    · change f.addr.toNat < (f.addr + n).toNat
      bv_omega

/-- A range that ends with a page of its last segment is flushed, and another is not. -/
theorem Before.ends (hp : p.Sound) (h : Before p addr e t f) :
    ∃ r, Ends (flushround p) f r ∧
      ((∃ chunks, r = .ok chunks ∧ Tiles addr e chunks ∧ 2 ^ t.pgszlg2 ∣ e.toNat) ∨
        r = .error .Ebadarg ∧ ¬ 2 ^ t.pgszlg2 ∣ e.toNat) := by
  refine ends_of (P := fun f => Before p addr e t f ∨ ¬ 2 ^ t.pgszlg2 ∣ e.toNat ∧ Past e f) Flush.rest
    (fun f hf => ?_) (.inl h)
  rcases hf with hf | ⟨hdvd, hf⟩
  · have hround := hf.round hp
    cases hs : flushround p f with
    | done r =>
      rw [hs] at hround
      exact .inl hround
    | next f' =>
      rw [hs] at hround
      exact hround
  · have hround := hf.round hp
    cases hs : flushround p f with
    | done r =>
      rw [hs] at hround
      exact .inr ⟨hround, hdvd⟩
    | next f' =>
      rw [hs] at hround
      exact ⟨.inr ⟨hdvd, hround.1⟩, hround.2⟩

theorem Before.start (hlt : addr.toNat + len.toNat < 2 ^ 64) (hne : len ≠ 0)
    (hr : Reaches p (addr + len) addr t) :
    Before p addr (addr + len) t ⟨none, addr, len, []⟩ where
  le := Nat.le_refl _
  sum := by bv_omega
  tiles x := ⟨fun ⟨c, hc, _⟩ => absurd hc List.not_mem_nil, fun ⟨h₁, h₂⟩ => absurd h₂ (Nat.not_lt.mpr h₁)⟩
  last h := absurd h hne
  idle _ _ := hr
  busy s hs := by cases hs

/-! ## Success -/

/-- The call succeeds, and its chunks cover the range and leave no page that the range is not in. -/
def Flushes (p : Proc) (addr : Uintptr) (len : BitVec 64) : Prop :=
  ∃ chunks, syssegflush p addr len (.ok chunks) ∧
    (∀ x : Nat, addr.toNat ≤ x → x < addr.toNat + len.toNat →
      ∃ c ∈ chunks, c.1.toNat ≤ x ∧ x < c.1.toNat + c.2.toNat) ∧
    ∀ c ∈ chunks, ∀ x : Nat, c.1.toNat ≤ x → x < c.1.toNat + c.2.toNat →
      ∃ y s, p.lookup y = some s ∧ addr ≤ y ∧ y.toNat < addr.toNat + len.toNat ∧
        x / 2 ^ s.pgszlg2 = y.toNat / 2 ^ s.pgszlg2

/-- On a range in the segments, `syssegflush` succeeds exactly when the range is empty or ends with a
page of the segment that it ends in; else it raises `Ebadarg`. -/
theorem syssegflush_exact (p : Proc) (addr : Uintptr) (len : BitVec 64) (hp : p.Sound)
    (hc : Covered p addr len) :
    Flushes p addr len ↔
      len = 0 ∨ ∃ s, Reaches p (addr + len) addr s ∧ 2 ^ s.pgszlg2 ∣ (addr + len).toNat := by
  have hlt := hc.lt hp
  by_cases h0 : len = 0
  · subst h0
    have hdone : flushround p ⟨none, addr, 0, []⟩ = .done (.ok []) := rfl
    exact iff_of_true ⟨[], (ends_done hdone).mpr rfl,
      fun x h₁ h₂ => absurd h₂ (Nat.not_lt.mpr h₁), fun c hc => absurd hc List.not_mem_nil⟩ (.inl rfl)
  have hsum : (addr + len).toNat = addr.toNat + len.toNat := by bv_omega
  have hpos : addr < addr + len := by bv_omega
  constructor
  · rintro ⟨chunks, hend, -⟩
    obtain ⟨t, ht⟩ := Covered.reaches (fun x hx hx' => hc x hx (by bv_omega)) hpos
    obtain ⟨r, hr, hcases⟩ := (Before.start hlt h0 ht).ends hp
    rcases hcases with ⟨-, -, -, hdvd⟩ | ⟨rfl, -⟩
    · exact .inr ⟨t, ht, hdvd⟩
    · cases hr.unique hend
  · intro hcond
    obtain ⟨t, ht, hdvd⟩ := hcond.resolve_left h0
    obtain ⟨r, hr, hcases⟩ := (Before.start hlt h0 ht).ends hp
    rcases hcases with ⟨chunks, rfl, htiles, -⟩ | ⟨-, hnot⟩
    · refine ⟨chunks, hr, fun x h₁ h₂ => (htiles x).mpr ⟨h₁, by omega⟩, fun c hmem x h₁ h₂ => ?_⟩
      obtain ⟨h₃, h₄⟩ := (htiles x).mp ⟨c, hmem, h₁, h₂⟩
      have hx : (BitVec.ofNat 64 x).toNat = x := by bv_omega
      obtain ⟨s, hs⟩ := lookup_of_inside
        (hc (BitVec.ofNat 64 x) (by bv_omega) (by bv_omega))
      exact ⟨_, s, hs, by bv_omega, by bv_omega, by rw [hx]⟩
    · exact absurd hdvd hnot

/-! ## A process with one page of data -/

private def onepage : Proc where
  seg i := if i = DSEG then some ⟨SG_DATA, 0x400000, 0x404000, 14⟩ else none

theorem onepage_seg {i : Fin NSEG} {s : Segment} (h : onepage.seg i = some s) :
    s = ⟨SG_DATA, 0x400000, 0x404000, 14⟩ := by
  unfold onepage at h
  dsimp only at h
  split at h <;> cases h
  rfl

theorem onepage_sound : onepage.Sound := by
  intro i s h
  rw [onepage_seg h]
  exact ⟨by decide, by decide, by decide, by decide, by decide, by decide⟩

theorem onepage_covers {addr : Uintptr} (h : 0x400000 ≤ addr)
    (h' : addr.toNat + len.toNat ≤ 0x404000) : Covered onepage addr len := by
  intro x hx hx'
  refine List.find?_isSome.mpr ⟨DSEG, List.mem_finRange _, ?_⟩
  simp only [onepage, if_true, Option.any_some, Bool.and_eq_true, decide_eq_true_eq]
  exact ⟨by bv_omega, by bv_omega⟩

theorem syssegflush_exact_onepage : Flushes onepage 0x400001 0x3fff := by
  refine (syssegflush_exact onepage 0x400001 0x3fff onepage_sound
    (onepage_covers (by decide) (by decide))).mpr (.inr ⟨⟨SG_DATA, 0x400000, 0x404000, 14⟩, ?_, by decide⟩)
  exact .here rfl (by decide)

/-- One byte is not flushed: the length wraps around. -/
theorem syssegflush_refuses : ∃ p addr len, Proc.Sound p ∧ Covered p addr len ∧
    ¬ Flushes p addr len := by
  refine ⟨onepage, 0x400000, 1, onepage_sound, onepage_covers (by decide) (by decide), ?_⟩
  rintro ⟨chunks, hend, -⟩
  have hrun : (loop (flushround onepage) 4 ⟨none, 0x400000, 1, []⟩).any
      (fun r => !r.isOk) = true := by decide +kernel
  obtain ⟨r, hr, hok⟩ := (Option.any_eq_true _ _).mp hrun
  rw [Ends.unique ⟨4, hr⟩ hend] at hok
  cases hok

end NixMark.Seg
