import NixMark.Asm.Runs

/-!
# The range that an allocation returns

* `Map.Mapped s t y`: the address `y` is mapped to the type `t`.
* `Owned`: what an allocation promises of the address and the map that it returns.
* `Sound`: when it is so; `asmalloc_owned`.
-/

namespace NixMark.Asm

open Lib
open Function (update update_eq_self update_of_ne update_self)

namespace Map

variable {s : Map} {l l₁ l₂ f : List Nat} {i q n : Nat} {t : Int}

/-- The address is in an entry of the type that the map leads to. -/
def Mapped (s : Map) (t : Int) (y : Uintmem) : Prop :=
  ∃ i, Follows s.next s.asmlist i ∧ (s.span i).At t y.toNat

/-- The address is in one of the entries `l`, of the type. -/
def Covers (s : Map) (l : List Nat) (t : Int) (y : Uintmem) : Prop :=
  ∃ i ∈ l, (s.span i).At t y.toNat

/-- What an allocation promises of the address `a` and of the map `s'` that it leaves. -/
structure Owned (s : Map) (addr size : Uintmem) (type align : Int) (a : Uintmem) (s' : Map) :
    Prop where
  inside : a ≠ 0 → ∃ i, Follows s.next s.asmlist i ∧ s.type i = type ∧ s.Inside i a size
  multiple : a ≠ 0 → 0 < align → align ∣ a.toNat
  asked : a ≠ 0 → addr ≠ 0 → (0 < align → align ∣ addr.toNat) → a = addr
  taken : a ≠ 0 → s.Room → ∀ t y, s'.Mapped t y ↔
    s.Mapped t y ∧ ¬ (range a size type).At t y.toNat
  failed : a = 0 → addr ≠ 0 → s' = s

/-- Where a range in the entry begins: the address that is asked for, or that of the entry, rounded
up to the alignment. -/
def origin (s : Map) (i : Nat) (addr : Uintmem) (align : Int) : Uintmem :=
  aligned (if addr = 0 then s.addr i else addr) align

/-- The loop comes to the entry `i` after `l₁`, and takes it. -/
structure Takes (s : Map) (l₁ : List Nat) (i : Nat) (addr size : Uintmem) (type align : Int) :
    Prop where
  skip : ∀ j ∈ l₁, s.fit j addr size type align = .skip
  take : s.fit i addr size type align = .take (s.origin i addr align)

/-- The range from `x` on is all that is left of the entry that is first in the map. Taking it is
right if what the free list leads to then covers what the rest of the map did. -/
def Replaced (s : Map) (i : Nat) (l₂ f : List Nat) (x : Uintmem) : Prop :=
  if s.addr i = x then ∀ t y, s.Covers f t y ↔ s.Covers l₂ t y else l₂ = []

/-- When an allocation that takes the entry `i`, which is between `l₁` and `l₂`, keeps its
promise. -/
structure SoundAt (s : Map) (l₁ : List Nat) (i : Nat) (l₂ f : List Nat) (addr size : Uintmem)
    (type : Int) (x : Uintmem) : Prop where
  /-- The rounding overflows to 0. -/
  zero : x = 0 → addr = 0 ∨ size = s.addr i
  /-- The rounding passes the end of the entry. -/
  past : x ≠ 0 → (s.span i).hi < x.toNat →
    ¬ s.Room ∧ ∃ j ∈ l₁ ++ i :: l₂, s.type j = type ∧ s.Inside j x size
  /-- The end of the first entry is taken. -/
  first : x ≠ 0 → x.toNat ≤ (s.span i).hi → s.Room → l₁ = [] →
    x.toNat + size.toNat = (s.span i).hi → s.Replaced i l₂ f x

def Sound (s : Map) (l f : List Nat) (addr size : Uintmem) (type align : Int) : Prop :=
  ∀ l₁ i l₂, l = l₁ ++ i :: l₂ → s.Takes l₁ i addr size type align →
    s.SoundAt l₁ i l₂ f addr size type (s.origin i addr align)

/-! ## Addresses -/

theorem follows_iff (h : Chain s.next s.asmlist l) : Follows s.next s.asmlist i ↔ i ∈ l :=
  ⟨h.mem_of_follows, h.follows⟩

theorem mapped_iff (h : Chain s.next s.asmlist l) {y : Uintmem} :
    s.Mapped t y ↔ s.Covers l t y := by
  simp only [Mapped, Covers, follows_iff h]

theorem covers_append {y : Uintmem} :
    s.Covers (l₁ ++ l₂) t y ↔ s.Covers l₁ t y ∨ s.Covers l₂ t y := by
  simp only [Covers, List.mem_append, or_and_right, exists_or]

theorem covers_cons {y : Uintmem} :
    s.Covers (i :: l) t y ↔ (s.span i).At t y.toNat ∨ s.Covers l t y := by
  simp only [Covers, List.mem_cons, or_and_right, exists_or, exists_eq_left]

theorem covers_mid {y : Uintmem} : s.Covers (l₁ ++ i :: l₂) t y ↔
    s.Covers (l₁ ++ l₂) t y ∨ (s.span i).At t y.toNat := by
  rw [covers_append, covers_cons, covers_append]
  tauto

theorem Covers.congr {s' : Map} {y : Uintmem} (h : ∀ i ∈ l, s'.span i = s.span i) :
    s'.Covers l t y ↔ s.Covers l t y := by
  unfold Covers
  refine exists_congr fun i => and_congr_right fun hi => ?_
  rw [h i hi]

/-! ## The address that is taken -/

/-- Rounding up: to the next multiple, or to 0 if that is 2⁶⁴. -/
theorem aligned_spec {align : Int} (ha : 0 < align) (hlt : align < 2 ^ 31) (a : Uintmem) :
    align ∣ (aligned a align).toNat ∧
      (a.toNat ≤ (aligned a align).toNat ∧ (align ∣ a.toNat → aligned a align = a) ∨
        aligned a align = 0 ∧ a ≠ 0) := by
  obtain ⟨n, rfl⟩ := Int.eq_ofNat_of_zero_le ha.le
  have hn : 0 < n := by omega
  have hn' : (BitVec.ofInt 64 (n : Int)).toNat = n := by
    rw [BitVec.ofInt_natCast, BitVec.toNat_ofNat]
    omega
  have hup : (a + BitVec.ofInt 64 (n : Int) - 1).toNat = (a.toNat + n - 1) % 2 ^ 64 := by
    rw [BitVec.toNat_sub, BitVec.toNat_add, hn', show (1 : Uintmem).toNat = 1 from rfl]
    omega
  have hle := Nat.div_mul_le_self ((a.toNat + n - 1) % 2 ^ 64) n
  have hv : (aligned a n).toNat = (a.toNat + n - 1) % 2 ^ 64 / n * n := by
    rw [aligned, if_pos ha, BitVec.toNat_mul, BitVec.toNat_udiv, hn', hup]
    exact Nat.mod_eq_of_lt (by omega)
  refine ⟨?_, ?_⟩
  · rw [hv]
    exact_mod_cast Dvd.intro_left _ rfl
  have hlt' := a.isLt
  by_cases ho : a.toNat + n - 1 < 2 ^ 64
  · rw [Nat.mod_eq_of_lt ho] at hv hle
    have hd := Nat.div_add_mod (a.toNat + n - 1) n
    have hm := Nat.mod_lt (a.toNat + n - 1) hn
    rw [mul_comm] at hd
    refine .inl ⟨by omega, fun hdvd => ?_⟩
    obtain ⟨k, hk⟩ : n ∣ a.toNat := by exact_mod_cast hdvd
    apply BitVec.eq_of_toNat_eq
    rw [hv, hk, Nat.add_sub_assoc hn, Nat.mul_add_div hn, Nat.div_eq_of_lt (by omega)]
    rw [Nat.add_zero, mul_comm]
  · refine .inr ⟨?_, ?_⟩
    · apply BitVec.eq_of_toNat_eq
      rw [hv, Nat.div_eq_of_lt (by omega)]
      exact Nat.zero_mul n
    · rintro rfl
      simp at ho
      omega

theorem origin_spec (s : Map) (i : Nat) (addr : Uintmem) {align : Int} (hlt : align < 2 ^ 31) :
    (0 < align → align ∣ (s.origin i addr align).toNat) ∧
      ((if addr = 0 then s.addr i else addr).toNat ≤ (s.origin i addr align).toNat ∧
        (addr ≠ 0 → (0 < align → align ∣ addr.toNat) → s.origin i addr align = addr) ∨
        s.origin i addr align = 0 ∧ (addr = 0 → s.addr i ≠ 0)) := by
  unfold origin
  by_cases ha : 0 < align
  · obtain ⟨hd, hor⟩ := aligned_spec ha hlt (if addr = 0 then s.addr i else addr)
    refine ⟨fun _ => hd, hor.imp ?_ ?_⟩
    · rintro ⟨hle, he⟩
      refine ⟨hle, fun h0 hdvd => ?_⟩
      rw [if_neg h0] at he ⊢
      exact he (hdvd ha)
    · rintro ⟨h0, hne⟩
      refine ⟨h0, fun hz => ?_⟩
      rwa [if_pos hz] at hne
  · simp only [aligned, if_neg ha]
    exact ⟨fun h => absurd h ha, .inl ⟨le_rfl, fun h0 _ => if_neg h0⟩⟩

/-- What the tests of the loop say of an entry that is taken. -/
theorem fit_take {addr size x : Uintmem} {type align : Int}
    (h : s.fit i addr size type align = .take x) :
    s.type i = type ∧ x = s.origin i addr align ∧ ¬ s.addr i + s.size i - x < size ∧
      (addr ≠ 0 → s.addr i ≤ addr ∧ addr - s.addr i ≤ s.size i) := by
  unfold fit at h
  unfold origin
  split at h
  · cases h
  next ht =>
  split at h
  · next h0 =>
    split at h
    · cases h
    next h₁ =>
    split at h
    · cases h
    next h₂ =>
    split at h
    · cases h
    · obtain ⟨rfl, hfit⟩ := fitAt_take h
      rw [if_neg h0]
      exact ⟨not_not.mp ht, rfl, hfit, fun _ => ⟨BitVec.not_lt.mp h₁, BitVec.not_lt.mp h₂⟩⟩
  · next h0 =>
    obtain ⟨rfl, hfit⟩ := fitAt_take h
    rw [if_pos (not_not.mp h0)]
    exact ⟨not_not.mp ht, rfl, hfit, fun h => absurd h h0⟩

/-- A range that begins in its entry lies in it. -/
theorem Takes.inside {addr size : Uintmem} {type align : Int}
    (h : s.Takes l₁ i addr size type align) (htop : (s.span i).hi < 2 ^ 64)
    (hle : (s.span i).lo ≤ (s.origin i addr align).toNat)
    (hhi : (s.origin i addr align).toNat ≤ (s.span i).hi) :
    s.Inside i (s.origin i addr align) size := by
  obtain ⟨-, -, hfit, -⟩ := fit_take h.take
  simp only [span] at htop hle hhi
  refine ⟨hle, ?_⟩
  bv_omega

/-! ## Returning what is before the range -/

theorem asmfree_returns (h : Chain s.next s.asmlist l) (hl : l.length ≤ nelem) (a z : Uintmem)
    (t : Int) : ∃ r s', s.asmfree a z t = some (r, s') := by
  obtain ⟨l₁, l₂, rfl, hw, -⟩ := walk_spec s a [] h hl
  unfold asmfree
  split
  · exact ⟨_, _, rfl⟩
  · rw [show s.walk a nelem none s.asmlist = _ from hw]
    exact ⟨_, _, rfl⟩

/-- The neighbours that the loop of `asmfree` finds for a range that no entry touches. -/
theorem walk_apart (hl : Tidy (l.map s.span)) (h : Chain s.next s.asmlist l)
    (hn : l.length ≤ nelem) {a z : Uintmem} (hz : 0 < z.toNat)
    (hap : ∀ j ∈ l, (s.span j).Before (range a z t) ∨ (range a z t).Before (s.span j)) :
    ∃ l₁ l₂, l = l₁ ++ l₂ ∧ s.walk a nelem none s.asmlist = some (l₁.getLast?, l₂.head?) ∧
      (∀ p ∈ l₁.getLast?, (s.span p).Before (range a z t)) ∧
      ∀ q ∈ l₂.head?, (range a z t).Before (s.span q) := by
  obtain ⟨l₁, l₂, rfl, hw, h₁, h₂⟩ := walk_spec s a [] h hn
  refine ⟨l₁, l₂, rfl, hw, fun p hp => ?_, fun q hq => ?_⟩
  · have hm := List.mem_of_getLast? hp
    refine (hap p (List.mem_append_left _ hm)).resolve_right fun hb => ?_
    have hle : (s.addr p).toNat ≤ a.toNat := h₁ p hm
    have := hb.1
    simp only [range, span] at this
    omega
  · have hm := List.mem_append_right l₁ (List.mem_of_head? hq)
    refine (hap q hm).resolve_left fun hb => ?_
    have hlt : a.toNat < (s.addr q).toNat := h₂ q hq
    have := hb.1
    have hpos := hl.pos _ (List.mem_map_of_mem hm)
    simp only [range, span] at this hpos
    omega

/-- The entry `p` is linked between `pp` and `np`. -/
def linkin (s : Map) (pp : Option Nat) (p : Nat) (np : Option Nat) : Map :=
  { s.setppp pp (some p) with next := Function.update (s.setppp pp (some p)).next p np }

theorem linkin_span (s : Map) (pp : Option Nat) (p : Nat) (np : Option Nat) :
    (s.linkin pp p np).span = s.span := by
  cases pp <;> rfl

/-- A range that no entry touches is put into an entry of its own. -/
theorem put_apart {a z : Uintmem} (pp np : Option Nat) (ht : a.toNat + z.toNat < 2 ^ 64)
    (hp : ∀ p ∈ pp, (s.span p).Before (range a z t))
    (hq : ∀ q ∈ np, (range a z t).Before (s.span q)) :
    s.put a z t pp np = (s.asmnew a z t).1.elim (-1, (s.asmnew a z t).2)
      fun p => (0, (s.asmnew a z t).2.linkin pp p np) := by
  have ho : ¬ s.overlaps a z pp np = true := by
    simp only [overlaps, Bool.or_eq_true, not_or, Option.any_eq_true, not_exists, not_and,
      decide_eq_true_eq]
    refine ⟨fun p hpp hlt => ?_, fun q hnp hlt => ?_⟩
    · have := (hp p hpp).1
      simp only [range, span] at this
      bv_omega
    · have := (hq q hnp).1
      simp only [range, span] at this
      bv_omega
  have hP : pp.filter (fun p => s.type p == t && s.addr p + s.size p == a) = none := by
    rw [Option.filter_eq_none_iff]
    intro p hpp
    simp only [Bool.and_eq_true, beq_iff_eq, not_and]
    rintro hk rfl
    have hb := hp p hpp
    refine hb.2 hk ?_
    have := hb.1
    simp only [range, span] at this ⊢
    bv_omega
  have hN : np.filter (fun q => s.type q == t && a + z == s.addr q) = none := by
    rw [Option.filter_eq_none_iff]
    intro q hnp
    simp only [Bool.and_eq_true, beq_iff_eq, not_and]
    intro hk he
    refine (hq q hnp).2 hk.symm ?_
    simp only [range, span]
    bv_omega
  rw [put, if_neg ho, hP, hN]
  rcases s.asmnew a z t with ⟨_ | p, s'⟩ <;> rfl

theorem asmfree_eq {a z : Uintmem} {pp np : Option Nat} (hz : z ≠ 0)
    (hw : s.walk a nelem none s.asmlist = some (pp, np)) :
    s.asmfree a z t = some (s.put a z t pp np) := by
  rw [asmfree, if_neg hz, hw]
  rfl

theorem asmfree_apart (h : Rep s l f) {a z : Uintmem} (hz : 0 < z.toNat)
    (ht : a.toNat + z.toNat < 2 ^ 64)
    (hap : ∀ j ∈ l, (s.span j).Before (range a z t) ∨ (range a z t).Before (s.span j)) :
    ∃ r s', s.asmfree a z t = some (r, s') ∧ (s.Room → ∃ l' f', s'.Rep l' f' ∧
      ∀ k y, s'.Covers l' k y ↔ s.Covers l k y ∨ (range a z t).At k y.toNat) := by
  obtain ⟨l₁, l₂, rfl, hw, hp, hq⟩ := walk_apart h.tidy h.list h.length_le hz hap
  have hz0 : z ≠ 0 := by
    rintro rfl
    exact absurd hz (by decide)
  obtain ⟨r, m, hput⟩ : ∃ r m, s.put a z t l₁.getLast? l₂.head? = (r, m) := ⟨_, _, rfl⟩
  refine ⟨r, m, by rw [asmfree_eq hz0 hw, hput], fun hr => ?_⟩
  rw [put_apart _ _ ht hp hq] at hput
  obtain ⟨-, hno⟩ | ⟨p, s', f', hnew, hn, hs, hpa, hpz, hpt⟩ := asmnew_spec h a z t
  · exact absurd hr hno
  have hsp : s'.span p = range a z t := by simp only [span, range, hpa, hpz, hpt]
  rw [hnew] at hput
  cases hput
  refine ⟨l₁ ++ p :: l₂, f', hn.link (by rw [hpz]; exact hz) (by rw [hpa, hpz]; exact ht) ?_ ?_,
    fun k y => ?_⟩
  · intro q hq'
    rw [hsp, hs q (List.mem_append_left _ (List.mem_of_getLast? hq'))]
    exact hp q hq'
  · intro q hq'
    rw [hsp, hs q (List.mem_append_right _ (List.mem_of_head? hq'))]
    exact hq q hq'
  · have hlink : ∀ j ∈ l₁ ++ p :: l₂, (s'.linkin l₁.getLast? p l₂.head?).span j = s'.span j :=
      fun j _ => congrFun (linkin_span s' _ p _) j
    exact (Covers.congr hlink).trans <| by rw [covers_mid, hsp, Covers.congr hs]

/-! ## A range that lies in its entry -/

variable {x z : Uintmem}

theorem Rep.span_ne (h : Rep s (l₁ ++ i :: l₂) f) : ∀ j ∈ l₁ ++ l₂, j ≠ i := fun _ hj =>
  ne_of_mem_of_not_mem hj h.nodup_mid

theorem Rep.before_mid (h : Rep s (l₁ ++ i :: l₂) f) :
    (∀ j ∈ l₁, (s.span j).Before (s.span i)) ∧ ∀ j ∈ l₂, (s.span i).Before (s.span j) := by
  have ht := h.tidy
  rw [List.map_append, List.map_cons] at ht
  obtain ⟨h₁, h₂⟩ := ht.before_mid
  exact ⟨fun j hj => h₁ _ (List.mem_map_of_mem hj), fun j hj => h₂ _ (List.mem_map_of_mem hj)⟩

/-- The map after the cut, `l'`, and what it covers. -/
structure Cut (s : Map) (l₁ : List Nat) (i : Nat) (l₂ : List Nat) (x z : Uintmem) (s' : Map)
    (l' f' : List Nat) : Prop where
  rep : s'.Rep l' f'
  room : s.Room → s'.Room
  mem : ∀ j ∈ l', j ∈ l₁ ++ l₂ ∨ j = i
  span : ∀ j ∈ l₁ ++ l₂, s'.span j = s.span j
  last : i ∈ l' → s'.span i = ⟨x.toNat + z.toNat, (s.span i).hi, s.type i⟩
  covers : ∀ k y, s'.Covers l' k y ↔ s.Covers (l₁ ++ l₂) k y ∨
    Span.At ⟨x.toNat + z.toNat, (s.span i).hi, s.type i⟩ k y.toNat

theorem cut_inside (h : Rep s (l₁ ++ i :: l₂) f) (hin : s.Inside i x z)
    (hhead : l₁ = [] → x.toNat + z.toNat ≠ (s.span i).hi) :
    ∃ l' f', Cut s l₁ i l₂ x z (s.cut l₁.getLast? i x z) l' f' := by
  have htop : (s.span i).hi < 2 ^ 64 := h.top i (by simp)
  have hne := h.span_ne
  have hspan : ∀ j ∈ l₁ ++ l₂, (s.trimmed i x z).span j = s.span j := fun j hj =>
    trimmed_span_ne (hne j hj)
  by_cases h0 : s.rest i x z = 0
  · have hend := (rest_eq_zero hin htop).mp h0
    rcases List.eq_nil_or_concat l₁ with rfl | ⟨l₁, q, rfl⟩
    · exact absurd hend (hhead rfl)
    · rw [List.concat_eq_append] at *
      have h' : Rep s (l₁ ++ q :: i :: l₂) f := by simpa using h
      have hl : l₁ ++ [q] ++ l₂ = l₁ ++ q :: l₂ := List.append_assoc _ _ _
      rw [List.getLast?_concat, cut_tossed h0]
      refine ⟨_, _, h'.pull x z, fun _ => .inl (Option.some_ne_none _), fun j hj => ?_, hspan,
        fun hi => absurd (hl ▸ hi) h.nodup_mid, fun k y => ?_⟩
      · exact .inl (hl ▸ hj)
      · rw [hl]
        rw [hl] at hspan
        refine (Covers.congr hspan).trans (or_iff_left ?_).symm
        rintro ⟨-, h₁, h₂⟩
        exact absurd (h₁.trans_lt h₂) (by simp only; omega)
  · rw [cut_kept _ h0]
    have hi := trimmed_span hin htop
    refine ⟨_, f, h.trim hin h0, fun hr => hr, fun j hj => ?_, hspan, fun _ => hi, fun k y => ?_⟩
    · rcases List.mem_append.mp hj with hj | hj
      · exact .inl (List.mem_append_left _ hj)
      · exact (List.mem_cons.mp hj).symm.imp_left (List.mem_append_right _)
    · rw [covers_mid, hi, Covers.congr hspan]

/-- The part of the entry before the range is apart from the map after the cut. -/
theorem Cut.apart {s' : Map} {l' f' : List Nat} (h : Cut s l₁ i l₂ x z s' l' f')
    (hr : Rep s (l₁ ++ i :: l₂) f) (hin : s.Inside i x z) (hz : 0 < z.toNat) :
    ∀ j ∈ l', (s'.span j).Before ⟨(s.span i).lo, x.toNat, s.type i⟩ ∨
      Span.Before ⟨(s.span i).lo, x.toNat, s.type i⟩ (s'.span j) := by
  obtain ⟨h₁, h₂⟩ := hr.before_mid
  have hhi : x.toNat + z.toNat ≤ (s.span i).hi := hin.2
  intro j hj
  rcases h.mem j hj with hm | rfl
  · rw [h.span j hm]
    rcases List.mem_append.mp hm with hm | hm
    · exact .inl (h₁ j hm)
    · have := (h₂ j hm).1
      exact .inr ⟨by simp only; omega, fun _ => by simp only; omega⟩
  · rw [h.last hj]
    exact .inr ⟨Nat.le_add_right _ _, fun _ => by simp only; omega⟩

/-- The entry, less the range. -/
theorem Rep.less (h : Rep s (l₁ ++ i :: l₂) f) (hin : s.Inside i x z) (k : Int) (y : Uintmem) :
    (s.Covers (l₁ ++ i :: l₂) k y ∧ ¬ (range x z (s.type i)).At k y.toNat) ↔
      (s.Covers (l₁ ++ l₂) k y ∨
        Span.At ⟨x.toNat + z.toNat, (s.span i).hi, s.type i⟩ k y.toNat) ∨
        Span.At ⟨(s.span i).lo, x.toNat, s.type i⟩ k y.toNat := by
  obtain ⟨h₁, h₂⟩ := h.before_mid
  have hlo : (s.span i).lo ≤ x.toNat := hin.1
  have hhi : x.toNat + z.toNat ≤ (s.span i).hi := hin.2
  have hk : (s.span i).kind = s.type i := rfl
  rw [covers_mid]
  simp only [Span.At, range, hk]
  constructor
  · rintro ⟨hc | ⟨ht, ha, hb⟩, hn⟩
    · exact .inl (.inl hc)
    · by_cases hy : y.toNat < x.toNat
      · exact .inr ⟨ht, ha, hy⟩
      · exact .inl (.inr ⟨ht, by by_contra; exact hn ⟨ht, by omega, by omega⟩, hb⟩)
  · rintro ((hc | ⟨ht, ha, hb⟩) | ⟨ht, ha, hb⟩)
    · refine ⟨.inl hc, fun hy => ?_⟩
      obtain ⟨j, hj, -, hja, hjb⟩ := hc
      rcases List.mem_append.mp hj with hj | hj
      · have := (h₁ j hj).1
        omega
      · have := (h₂ j hj).1
        omega
    · exact ⟨.inr ⟨ht, by omega, hb⟩, fun hy => by omega⟩
    · exact ⟨.inr ⟨ht, ha, by omega⟩, fun hy => by omega⟩

/-- The call, once the loop has chosen an entry. -/
theorem asmalloc_eq {addr size : Uintmem} {type align : Int} {pp : Option Nat}
    (h : s.search addr size type align nelem none s.asmlist = some (some (pp, i, x))) :
    s.asmalloc addr size type align =
      if s.addr i ≠ x then
        ((s.cut pp i x size).asmfree (s.addr i) (x - s.addr i) type).map fun (_, s) => (x, s)
      else some (x, s.cut pp i x size) := by
  rw [asmalloc, h]

/-- The range is taken out of an entry that it lies in, and not from the end of the first one. -/
theorem taken_inside (h : Rep s (l₁ ++ i :: l₂) f) (hin : s.Inside i x z) (hz : 0 < z.toNat)
    (hhead : l₁ = [] → x.toNat + z.toNat ≠ (s.span i).hi) :
    ∃ s', (if s.addr i ≠ x then
        ((s.cut l₁.getLast? i x z).asmfree (s.addr i) (x - s.addr i) (s.type i)).map
          fun (_, s) => (x, s)
        else some (x, s.cut l₁.getLast? i x z)) = some (x, s') ∧
      (s.Room → ∀ k y, s'.Mapped k y ↔ s.Mapped k y ∧ ¬ (range x z (s.type i)).At k y.toNat) := by
  obtain ⟨l', f', hc⟩ := cut_inside h hin hhead
  have hlo : (s.addr i).toNat ≤ x.toNat := hin.1
  have hx := x.isLt
  by_cases ho : s.addr i ≠ x
  · have hlt : (s.addr i).toNat < x.toNat := by
      refine lt_of_le_of_ne hlo fun he => ho ?_
      exact BitVec.eq_of_toNat_eq he
    have hsub : (x - s.addr i).toNat = x.toNat - (s.addr i).toNat := by
      rw [BitVec.toNat_sub]
      omega
    have hr : range (s.addr i) (x - s.addr i) (s.type i) =
        ⟨(s.span i).lo, x.toNat, s.type i⟩ := by
      simp only [range, hsub, span]
      rw [Nat.add_sub_cancel' hlo]
    obtain ⟨r, s', he, hroom⟩ := asmfree_apart (t := s.type i) hc.rep (a := s.addr i)
      (z := x - s.addr i) (by omega) (by omega) (hr ▸ hc.apart h hin hz)
    refine ⟨s', by rw [if_pos ho, he]; rfl, fun hR k y => ?_⟩
    obtain ⟨l'', f'', hrep, hcov⟩ := hroom (hc.room hR)
    rw [mapped_iff hrep.list, mapped_iff h.list, hcov, hc.covers, hr, h.less hin]
  · refine ⟨_, by rw [if_neg ho], fun hR k y => ?_⟩
    rw [mapped_iff hc.rep.list, mapped_iff h.list, hc.covers, h.less hin]
    refine (or_iff_left ?_).symm
    rintro ⟨-, h₁, h₂⟩
    rw [not_not] at ho
    simp only [span, ho] at h₁ h₂
    omega

/-! ## The end of the first entry -/

/-- The loop of `asmfree` stops between `l₁` and `l₂`. -/
theorem walk_at (s : Map) (a : Uintmem) {p : Option Nat} {fuel : Nat} (pre : List Nat)
    (h : Chain s.next p (l₁ ++ l₂)) (hf : l₁.length + l₂.length ≤ fuel)
    (h₁ : ∀ j ∈ l₁, s.addr j ≤ a) (h₂ : ∀ q ∈ l₂.head?, a < s.addr q) :
    s.walk a fuel pre.getLast? p = some ((pre ++ l₁).getLast?, l₂.head?) := by
  induction l₁ generalizing p fuel pre with
  | nil =>
    rw [List.append_nil]
    cases l₂ with
    | nil =>
      cases h
      cases fuel <;> rfl
    | cons q l₂ =>
      obtain ⟨rfl, h⟩ := h
      cases fuel with
      | zero => simp at hf
      | succ fuel => rw [walk, if_neg (BitVec.not_le.mpr (h₂ q rfl))]; rfl
  | cons i l₁ ih =>
    obtain ⟨rfl, h⟩ := h
    cases fuel with
    | zero => simp at hf
    | succ fuel =>
      rw [walk, if_pos (h₁ i List.mem_cons_self)]
      have := @ih (s.next i) fuel (pre ++ [i]) h (by simp only [List.length_cons] at hf; omega)
        fun j hj => h₁ j (List.mem_cons_of_mem _ hj)
      rwa [List.getLast?_concat, List.append_assoc] at this

/-- All of the first entry is taken: the map leads to the free list. -/
theorem first_at (h : Rep s (i :: l₂) f) (hin : s.Inside i x z)
    (hend : x.toNat + z.toNat = (s.span i).hi) (k : Int) (y : Uintmem) :
    (s.cut none i x z).Mapped k y ↔ s.Covers f k y := by
  have htop : (s.span i).hi < 2 ^ 64 := h.top i List.mem_cons_self
  have h0 := (rest_eq_zero hin htop).mpr hend
  have hif : i ∉ f := fun hm =>
    (List.nodup_append.mp h.nodup).2.2 i List.mem_cons_self i hm rfl
  rw [cut_first h0]
  have hch : Chain ((s.trimmed i x z).toss i).next ((s.trimmed i x z).toss i).asmlist
      (i :: f) := by
    refine ⟨h.list.1, ?_⟩
    simp only [toss, update_self]
    exact h.free.congr fun j hj => update_of_ne (ne_of_mem_of_not_mem hj hif) _ _
  have hspan : ((s.trimmed i x z).toss i).span = (s.trimmed i x z).span := rfl
  rw [mapped_iff hch, covers_cons, hspan, trimmed_span hin htop]
  have hf : ((s.trimmed i x z).toss i).Covers f k y ↔ s.Covers f k y :=
    Covers.congr fun j hj => trimmed_span_ne (ne_of_mem_of_not_mem hj hif)
  rw [hf]
  refine or_iff_right ?_
  rintro ⟨-, h₁, h₂⟩
  simp only at h₁ h₂
  omega

/-- The end of the first entry is taken: what was before it is put into the entry again, which
then leads to itself. -/
theorem first_behind (h : Rep s (i :: l₂) f) (hin : s.Inside i x z) (hz : 0 < z.toNat)
    (hend : x.toNat + z.toNat = (s.span i).hi) (ho : s.addr i ≠ x) :
    ∃ r s', (s.cut none i x z).asmfree (s.addr i) (x - s.addr i) (s.type i) = some (r, s') ∧
      ∀ k y, s'.Mapped k y ↔ Span.At ⟨(s.span i).lo, x.toNat, s.type i⟩ k y.toNat := by
  have htop : (s.span i).hi < 2 ^ 64 := h.top i List.mem_cons_self
  have h0 := (rest_eq_zero hin htop).mpr hend
  have hlo : (s.addr i).toNat < x.toNat :=
    lt_of_le_of_ne hin.1 fun he => ho (BitVec.eq_of_toNat_eq he)
  have hx := x.isLt
  have hsub : (x - s.addr i).toNat = x.toNat - (s.addr i).toNat := by
    rw [BitVec.toNat_sub]
    omega
  have hr : range (s.addr i) (x - s.addr i) (s.type i) =
      ⟨(s.span i).lo, x.toNat, s.type i⟩ := by
    simp only [range, hsub, span]
    rw [Nat.add_sub_cancel' hlo.le]
  have hsz : x - s.addr i ≠ 0 := by
    intro he
    rw [he, show (0 : Uintmem).toNat = 0 from rfl] at hsub
    omega
  rw [cut_first h0]
  generalize hm : (s.trimmed i x z).toss i = m
  have hlist : m.asmlist = some i := by
    rw [← hm]
    exact h.list.1
  have hmi : m.span i = ⟨x.toNat + z.toNat, (s.span i).hi, s.type i⟩ := by
    rw [← hm]
    exact trimmed_span hin htop
  have hstop : s.addr i < m.addr i := by
    have : (m.addr i).toNat = x.toNat + z.toNat := congrArg Span.lo hmi
    exact show (s.addr i).toNat < _ by omega
  have hw : m.walk (s.addr i) nelem none m.asmlist = some (none, some i) := by
    rw [hlist]
    exact (if_neg (BitVec.not_le.mpr hstop) : _ = _)
  have hput := put_apart (s := m) (t := s.type i) (a := s.addr i) (z := x - s.addr i)
    none (some i) (by omega) (fun q hq => absurd hq (Option.not_mem_none q)) fun q hq => by
      cases hq
      rw [hr, hmi]
      exact ⟨Nat.le_add_right _ _, fun _ => by simp only; omega⟩
  have hfree : m.asmfreelist = some i := by rw [← hm]; rfl
  have hnew : m.asmnew (s.addr i) (x - s.addr i) (s.type i) = (some i,
      { m with
        asmfreelist := m.next i
        next := update m.next i none
        addr := update m.addr i (s.addr i)
        size := update m.size i (x - s.addr i)
        type := update m.type i (s.type i) }) := by
    rw [asmnew, hfree]
  rw [hnew] at hput
  refine ⟨_, _, (asmfree_eq hsz hw).trans (congrArg some hput), fun k y => ?_⟩
  have hspan : ∀ s', s' = Map.linkin { m with
      asmfreelist := m.next i
      next := update m.next i none
      addr := update m.addr i (s.addr i)
      size := update m.size i (x - s.addr i)
      type := update m.type i (s.type i) } none i (some i) →
      s'.asmlist = some i ∧ s'.next i = some i ∧
        s'.span i = range (s.addr i) (x - s.addr i) (s.type i) := by
    rintro s' rfl
    refine ⟨rfl, update_self _ _ _, ?_⟩
    rw [linkin_span]
    simp only [span, range, update_self]
  obtain ⟨ha, hn, hs⟩ := hspan _ rfl
  constructor
  · rintro ⟨j, hj, hy⟩
    -- the entry leads to itself only
    have hji := hj.mem_of_closed (l := [i]) (fun b hb => by
      cases ha.symm.trans hb
      exact List.mem_singleton_self i) fun b hb c hc => by
        rw [List.mem_singleton.mp hb] at hc
        cases hn.symm.trans hc
        exact List.mem_singleton_self i
    rw [List.mem_singleton.mp hji] at hy
    rw [← hr, ← hs]
    exact hy
  · intro hy
    rw [← hr, ← hs] at hy
    exact ⟨i, ha ▸ .here i, hy⟩

/-! ## A range that the rounding has put outside of its entry -/

/-- After a cut, the map is a list that ends. -/
theorem cut_chain (h : Rep s (l₁ ++ i :: l₂) f) (x z : Uintmem) :
    ∃ l', Chain (s.cut l₁.getLast? i x z).next (s.cut l₁.getLast? i x z).asmlist l' ∧
      l'.length ≤ nelem := by
  have hlen := h.lengths_le
  by_cases h0 : s.rest i x z = 0
  · rcases List.eq_nil_or_concat l₁ with rfl | ⟨l₁, q, rfl⟩
    · have hif : i ∉ f := fun hm =>
        (List.nodup_append.mp h.nodup).2.2 i List.mem_cons_self i hm rfl
      rw [List.getLast?_nil, cut_first h0]
      refine ⟨i :: f, ⟨h.list.1, ?_⟩, ?_⟩
      · simp only [toss, update_self]
        exact h.free.congr fun j hj => update_of_ne (ne_of_mem_of_not_mem hj hif) _ _
      · simp only [List.nil_append, List.length_cons] at hlen ⊢
        omega
    · rw [List.concat_eq_append] at *
      rw [List.getLast?_concat, cut_tossed h0]
      have h' : Rep s (l₁ ++ q :: i :: l₂) f := by simpa using h
      refine ⟨_, (h'.pull x z).list, ?_⟩
      simp only [List.length_append, List.length_cons] at hlen ⊢
      omega
  · rw [cut_kept _ h0]
    exact ⟨_, h.list, h.length_le⟩

/-- The call returns, whatever range the loop has chosen. -/
theorem asmalloc_returns {addr size : Uintmem} {type align : Int}
    (h : Rep s (l₁ ++ i :: l₂) f)
    (hs : s.search addr size type align nelem none s.asmlist = some (some (l₁.getLast?, i, x))) :
    ∃ s', s.asmalloc addr size type align = some (x, s') := by
  rw [asmalloc_eq hs]
  by_cases ho : s.addr i ≠ x
  · obtain ⟨l', hc, hl⟩ := cut_chain h x size
    obtain ⟨r, s', he⟩ := asmfree_returns hc hl (s.addr i) (x - s.addr i) type
    exact ⟨s', by rw [if_pos ho, he]; rfl⟩
  · exact ⟨_, if_neg ho⟩

/-- The entry of a range behind it wraps around: its end passes the last address. -/
theorem taken_past (h : Rep s (l₁ ++ i :: l₂) f) (hroom : s.Room) (hz : 0 < z.toNat)
    (hpast : (s.span i).hi < x.toNat) (hx : x.toNat + z.toNat < 2 ^ 64) :
    ∃ r s', (s.cut l₁.getLast? i x z).asmfree (s.addr i) (x - s.addr i) (s.type i) =
      some (r, s') ∧ s'.Mapped (s.type i) (BitVec.allOnes 64) := by
  have hpos := h.tidy.pos _ (List.mem_map_of_mem (f := s.span) (a := i) (by simp))
  have hhi : (s.span i).hi = (s.addr i).toNat + (s.size i).toNat := rfl
  have hlo : (s.span i).lo = (s.addr i).toNat := rfl
  have hadd : (x + z).toNat = x.toNat + z.toNat := by
    rw [BitVec.toNat_add]
    omega
  have hrest : (s.rest i x z).toNat = 2 ^ 64 + (s.span i).hi - (x.toNat + z.toNat) := by
    rw [rest, BitVec.toNat_sub, BitVec.toNat_add, BitVec.toNat_sub]
    omega
  have h0 : s.rest i x z ≠ 0 := by
    intro he
    rw [he, show (0 : Uintmem).toNat = 0 from rfl] at hrest
    omega
  have hsub : (x - s.addr i).toNat = x.toNat - (s.addr i).toNat := by
    rw [BitVec.toNat_sub]
    omega
  have hsz : x - s.addr i ≠ 0 := by
    intro he
    rw [he, show (0 : Uintmem).toNat = 0 from rfl] at hsub
    omega
  have hr : range (s.addr i) (x - s.addr i) (s.type i) =
      ⟨(s.span i).lo, x.toNat, s.type i⟩ := by
    simp only [range, hsub, span]
    rw [Nat.add_sub_cancel' (by omega)]
  rw [cut_kept _ h0]
  generalize hm : s.trimmed i x z = m
  have hl : Linked m (l₁ ++ i :: l₂) f := by
    rw [← hm]
    exact ⟨h.list, h.free, h.nodup, h.lt, h.index⟩
  have hmi : m.span i = ⟨x.toNat + z.toNat, 2 ^ 64 + (s.span i).hi, s.type i⟩ := by
    rw [← hm, trimmed, span_resize_self, hadd, hrest]
    rw [Nat.add_sub_cancel' (by omega)]
  have hmj : ∀ j ∈ l₁, m.span j = s.span j := fun j hj => by
    rw [← hm]
    exact trimmed_span_ne (h.span_ne j (List.mem_append_left _ hj))
  -- the loop stops before the entry
  have hw := walk_at m (s.addr i) [] hl.list (by simpa using h.length_le) (fun j hj => by
    have hb := (h.before_mid.1 j hj).1
    have he : (m.addr j).toNat = (s.addr j).toNat := congrArg Span.lo (hmj j hj)
    have hj : (s.span j).hi = (s.addr j).toNat + (s.size j).toNat := rfl
    exact show (m.addr j).toNat ≤ _ by omega) fun q hq => by
    cases hq
    have : (m.addr i).toNat = x.toNat + z.toNat := congrArg Span.lo hmi
    exact show (s.addr i).toNat < _ by omega
  have hput := put_apart (s := m) (t := s.type i) (a := s.addr i) (z := x - s.addr i)
    l₁.getLast? (some i) (by omega) (fun p hp => by
      have hp := List.mem_of_getLast? hp
      rw [hr, hmj p hp]
      exact h.before_mid.1 p hp) fun q hq => by
      cases hq
      rw [hr, hmi]
      exact ⟨Nat.le_add_right _ _, fun _ => by simp only; omega⟩
  obtain ⟨-, hno⟩ | ⟨p, s', f', hnew, hsp, hspan, -⟩ :=
    hl.asmnew (s.addr i) (x - s.addr i) (s.type i)
  · exact absurd (hm ▸ hroom) hno
  rw [hnew] at hput
  refine ⟨_, _, (asmfree_eq hsz hw).trans (congrArg some hput), ?_⟩
  have hlink := hsp.link
  have hip : i ≠ p := by
    rintro rfl
    exact (List.nodup_cons.mp hsp.nodup).1 (by simp)
  have hi : (s'.linkin l₁.getLast? p (some i)).span i = m.span i := by
    rw [linkin_span]
    exact hspan i hip
  refine ⟨i, hlink.list.follows (by simp), ?_⟩
  rw [hi, hmi]
  have htop : (BitVec.allOnes 64).toNat = 2 ^ 64 - 1 := by decide
  exact ⟨rfl, by rw [htop]; simp only; omega, by rw [htop]; simp only; omega⟩

/-! ## An address that the rounding has turned into 0 -/

theorem walk_above (s : Map) {a : Uintmem} {fuel : Nat} {p pp np : Option Nat}
    (p₀ : Option Nat) (h : s.walk a fuel p₀ p = some (pp, np)) :
    ∀ q ∈ np, a < s.addr q := by
  induction fuel generalizing p p₀ with
  | zero =>
    cases p with
    | none =>
      cases h
      exact nofun
    | some i => cases h
  | succ fuel ih =>
    cases p with
    | none =>
      cases h
      exact nofun
    | some i =>
      rw [walk] at h
      split at h
      · exact ih _ h
      · next hi =>
        cases h
        rintro q ⟨⟩
        exact BitVec.not_le.mp hi

/-- A range that ends at 2⁶⁴ is not joined with an entry behind it. -/
theorem asmfree_addr {s' : Map} {a z : Uintmem} {r : Int} (hw : a + z = 0)
    (h : s.asmfree a z t = some (r, s')) : s'.addr = s.addr ∨ ∃ p,
      s'.addr = update s.addr p a ∧ s'.size = update s.size p z := by
  unfold asmfree at h
  split at h
  · cases h
    exact .inl rfl
  obtain ⟨⟨pp, np⟩, hwalk, hput⟩ := Option.map_eq_some_iff.mp h
  have hN : np.filter (fun np => s.type np == t && a + z == s.addr np) = none := by
    rw [Option.filter_eq_none_iff]
    intro q hq
    have hlt := walk_above s none hwalk q hq
    simp only [hw, Bool.and_eq_true, beq_iff_eq, not_and]
    rintro - h0
    rw [← h0] at hlt
    exact absurd hlt BitVec.not_lt_zero
  simp only [put] at hput
  split at hput
  · cases hput
    exact .inl rfl
  rw [hN] at hput
  cases hP : pp.filter (fun pp => s.type pp == t && s.addr pp + s.size pp == a) with
  | some p =>
    rw [hP] at hput
    cases hput
    exact .inl rfl
  | none =>
    rw [hP] at hput
    unfold asmnew at hput
    cases hf : s.asmfreelist with
    | some p =>
      rw [hf] at hput
      cases hput
      refine .inr ⟨p, ?_, ?_⟩ <;> cases pp <;> rfl
    | none =>
      rw [hf] at hput
      simp only at hput
      split at hput
      · next he =>
        split at he
        · cases he
          cases hput
          exact .inl rfl
        · cases he
      · next he =>
        split at he
        · cases he
        · cases he
          cases hput
          refine .inr ⟨s.asmindex, ?_, ?_⟩ <;> cases pp <;> rfl

theorem cut_addr (pp : Option Nat) : (s.cut pp i x z).addr i = x + z := by
  by_cases h0 : s.rest i x z = 0
  · cases pp with
    | none =>
      rw [cut_first h0]
      exact update_self _ _ _
    | some q =>
      rw [cut_tossed h0]
      exact update_self _ _ _
  · rw [cut_kept pp h0]
    exact update_self _ _ _

/-- A range from 0 on is taken from the map, but for one freak case: the size is the address of the
entry, and the entry overlaps what is put back. -/
theorem taken_zero {addr size : Uintmem} {type align : Int} (h : Rep s (l₁ ++ i :: l₂) f)
    (hs : s.search addr size type align nelem none s.asmlist =
      some (some (l₁.getLast?, i, 0))) (hz : size ≠ 0) {s' : Map}
    (he : s.asmalloc addr size type align = some (0, s')) : s' = s ↔ size = s.addr i := by
  have htop := h.top i (by simp)
  rw [asmalloc_eq hs] at he
  constructor
  · rintro rfl
    by_cases ho : s'.addr i ≠ 0
    · rw [if_pos ho] at he
      obtain ⟨⟨r, m⟩, hf, hm⟩ := Option.map_eq_some_iff.mp he
      cases hm
      have hw : s'.addr i + (0 - s'.addr i) = 0 := by bv_omega
      have hc : (s'.cut l₁.getLast? i 0 size).addr i = size := by
        rw [cut_addr]
        bv_omega
      rcases asmfree_addr hw hf with ha | ⟨p, ha, hsz⟩
      · exact (hc.symm.trans (congrFun ha i).symm)
      · by_cases hip : i = p
        · have hsz := congrFun hsz i
          rw [hip, update_self, ← hip] at hsz
          bv_omega
        · have ha := congrFun ha i
          rw [update_of_ne hip, hc] at ha
          exact ha.symm
    · rw [if_neg ho] at he
      have hcut : s'.cut l₁.getLast? i 0 size = s' := (Prod.mk.inj (Option.some.inj he)).2
      have hc := cut_addr (s := s') (i := i) (x := 0) (z := size) l₁.getLast?
      rw [hcut] at hc
      bv_omega
  · rintro rfl
    have hpos := h.pos (i := i) (by simp)
    rw [if_pos hz] at he
    have hrest : s.rest i 0 (s.addr i) = s.size i := by
      rw [rest]
      bv_omega
    have hsz0 : s.size i ≠ 0 := by
      intro h0
      rw [h0] at hpos
      exact absurd hpos (by decide)
    have hcut : s.cut l₁.getLast? i 0 (s.addr i) = s := by
      rw [cut_kept _ (by rw [hrest]; exact hsz0), trimmed, hrest,
        show (0 : Uintmem) + s.addr i = s.addr i by bv_omega, resize_addr]
      rw [update_eq_self]
    rw [hcut] at he
    have hw : s.walk (s.addr i) nelem none s.asmlist = some ((l₁ ++ [i]).getLast?, l₂.head?) := by
      refine walk_at s (s.addr i) [] (by simpa using h.list) ?_ (fun j hj => ?_) fun q hq => ?_
      · have hlen := h.length_le
        change (l₁ ++ [i]).length + l₂.length ≤ nelem
        simp only [List.length_append, List.length_cons, List.length_nil] at hlen ⊢
        omega
      · rcases List.mem_append.mp hj with hj | hj
        · have hb := (h.before_mid.1 j hj).1
          have hj : (s.span j).hi = (s.addr j).toNat + (s.size j).toNat := rfl
          have hi : (s.span i).lo = (s.addr i).toNat := rfl
          exact show (s.addr j).toNat ≤ _ by omega
        · rw [List.mem_singleton.mp hj]
          exact BitVec.le_refl _
      · have hb := (h.before_mid.2 q (List.mem_of_head? hq)).1
        have hi : (s.span i).hi = (s.addr i).toNat + (s.size i).toNat := rfl
        have hq : (s.span q).lo = (s.addr q).toNat := rfl
        exact show (s.addr i).toNat < _ by omega
    rw [List.getLast?_concat] at hw
    have hnz : 0 - s.addr i ≠ 0 := by
      intro h0
      apply hz
      bv_omega
    have hover : s.overlaps (s.addr i) (0 - s.addr i) (some i) l₂.head? = true := by
      simp only [overlaps, Option.any_some, Bool.or_eq_true, decide_eq_true_eq]
      left
      bv_omega
    rw [asmfree_eq hnz hw, put, if_pos hover] at he
    cases he
    rfl


/-! ## The promise -/

section

variable {addr size : Uintmem} {type align : Int}

/-- The loop comes to the entry that it takes. -/
theorem Takes.search (h : s.Takes l₁ i addr size type align) {p : Option Nat} {fuel : Nat}
    (pre : List Nat) (hc : Chain s.next p (l₁ ++ i :: l₂)) (hf : l₁.length < fuel) :
    s.search addr size type align fuel pre.getLast? p =
      some (some ((pre ++ l₁).getLast?, i, s.origin i addr align)) := by
  induction l₁ generalizing p fuel pre with
  | nil =>
    obtain ⟨rfl, -⟩ := hc
    cases fuel with
    | zero => simp at hf
    | succ fuel =>
      rw [Map.search, h.take, List.append_nil]
  | cons j l₁ ih =>
    obtain ⟨rfl, hc⟩ := hc
    cases fuel with
    | zero => simp at hf
    | succ fuel =>
      have h' : s.Takes l₁ i addr size type align :=
        ⟨fun k hk => h.skip k (List.mem_cons_of_mem _ hk), h.take⟩
      have := @ih h' (s.next j) fuel (pre ++ [j]) hc (Nat.lt_of_succ_lt_succ hf)
      rw [List.getLast?_concat, List.append_assoc] at this
      rw [Map.search, h.skip j List.mem_cons_self]
      exact this

/-- It takes one entry only. -/
theorem Takes.unique {l₁' l₂' : List Nat} {i' : Nat} (h : s.Takes l₁ i addr size type align)
    (h' : s.Takes l₁' i' addr size type align) (he : l₁ ++ i :: l₂ = l₁' ++ i' :: l₂') :
    l₁ = l₁' ∧ i = i' ∧ l₂ = l₂' := by
  rcases List.append_eq_append_iff.mp he with ⟨m, rfl, hm⟩ | ⟨m, rfl, hm⟩
  · cases m with
    | nil =>
      cases hm
      exact ⟨(List.append_nil l₁).symm, rfl, rfl⟩
    | cons j m =>
      cases hm
      cases (h'.skip i (by simp)).symm.trans h.take
  · cases m with
    | nil =>
      cases hm
      exact ⟨List.append_nil l₁', rfl, rfl⟩
    | cons j m =>
      cases hm
      cases (h.skip i' (by simp)).symm.trans h'.take

theorem sound_iff (h : s.Takes l₁ i addr size type align) :
    s.Sound (l₁ ++ i :: l₂) f addr size type align ↔
      s.SoundAt l₁ i l₂ f addr size type (s.origin i addr align) := by
  constructor
  · intro hs
    exact hs l₁ i l₂ rfl h
  · rintro hs l₁' i' l₂' he h'
    obtain ⟨rfl, rfl, rfl⟩ := h.unique h' he
    exact hs

/-- An entry that is taken begins before the range, if the rounding has not overflowed. -/
theorem Takes.lo_le (h : s.Takes l₁ i addr size type align) (hal : align < 2 ^ 31)
    (hx : s.origin i addr align ≠ 0) : (s.span i).lo ≤ (s.origin i addr align).toNat := by
  obtain ⟨-, -, -, hlo⟩ := fit_take h.take
  obtain ⟨hle, -⟩ | ⟨h0, -⟩ := (origin_spec s i addr hal).2
  · by_cases ha : addr = 0
    · rwa [if_pos ha] at hle
    · rw [if_neg ha] at hle
      have hlo : (s.addr i).toNat ≤ addr.toNat := (hlo ha).1
      exact hlo.trans hle
  · exact absurd h0 hx

/-- The address itself is right in any case. -/
theorem owned_iff (hc : Chain s.next s.asmlist l) (hal : align < 2 ^ 31)
    (hx : s.origin i addr align ≠ 0) {s' : Map} :
    s.Owned addr size type align (s.origin i addr align) s' ↔
      (∃ j ∈ l, s.type j = type ∧ s.Inside j (s.origin i addr align) size) ∧
        (s.Room → ∀ k y, s'.Mapped k y ↔
          s.Mapped k y ∧ ¬ (range (s.origin i addr align) size type).At k y.toNat) := by
  constructor
  · intro h
    obtain ⟨j, hj, hin⟩ := h.inside hx
    exact ⟨⟨j, hc.mem_of_follows hj, hin⟩, h.taken hx⟩
  · rintro ⟨⟨j, hj, hin⟩, ht⟩
    obtain ⟨hmul, hor⟩ := origin_spec s i addr hal
    exact ⟨fun _ => ⟨j, hc.follows hj, hin⟩, fun _ => hmul,
      fun _ => (hor.resolve_right fun h0 => hx h0.1).2, fun _ => ht, fun h0 => absurd h0 hx⟩

/-- The promise, for a range that lies in its entry. -/
theorem taken_iff (h : Rep s (l₁ ++ i :: l₂) f) (hin : s.Inside i x size) (hz : 0 < size.toNat)
    (hti : s.type i = type)
    (hs : s.search addr size type align nelem none s.asmlist = some (some (l₁.getLast?, i, x))) :
    ∃ s', s.asmalloc addr size type align = some (x, s') ∧
      ((s.Room → ∀ k y, s'.Mapped k y ↔ s.Mapped k y ∧ ¬ (range x size type).At k y.toNat) ↔
        (s.Room → l₁ = [] → x.toNat + size.toNat = (s.span i).hi → s.Replaced i l₂ f x)) := by
  subst hti
  by_cases hfirst : l₁ = [] ∧ x.toNat + size.toNat = (s.span i).hi
  · obtain ⟨rfl, hend⟩ := hfirst
    have hlo : (s.span i).lo ≤ x.toNat := hin.1
    have hless := h.less hin
    have hmid := h.before_mid.2
    simp only [List.nil_append, List.getLast?_nil] at *
    simp only [hend] at hless
    -- nothing is left behind the range
    have hnone : ∀ k (y : Uintmem),
        ¬ Span.At ⟨(s.span i).hi, (s.span i).hi, s.type i⟩ k y.toNat := by
      rintro k y ⟨-, h₁, h₂⟩
      exact absurd h₁ (not_le.mpr h₂)
    rw [asmalloc_eq hs]
    by_cases ho : s.addr i = x
    · refine ⟨_, if_neg (not_not.mpr ho), ?_⟩
      have hnil : ∀ k (y : Uintmem), ¬ Span.At ⟨(s.span i).lo, x.toNat, s.type i⟩ k y.toNat := by
        rintro k y ⟨-, h₁, h₂⟩
        simp only [← ho, span] at h₁ h₂
        omega
      refine imp_congr_right fun _ => ?_
      simp only [Replaced, if_pos ho, hend, true_imp_iff, mapped_iff h.list, hless, hnone, hnil,
        or_false, first_at h hin hend]
    · obtain ⟨r, s', he, hcov⟩ := first_behind h hin hz hend ho
      refine ⟨s', by rw [if_pos ho, he]; rfl, ?_⟩
      refine imp_congr_right fun _ => ?_
      simp only [Replaced, if_neg ho, hend, true_imp_iff, mapped_iff h.list, hless, hnone,
        or_false, hcov]
      constructor
      · intro hall
        cases l₂ with
        | nil => rfl
        | cons j l₂ =>
          -- the next entry is lost
          have hj := (hmid j List.mem_cons_self).1
          have hpos := h.tidy.pos (s.span j) (by simp)
          have hall := (hall (s.type j) (s.addr j)).mpr
            (.inl ⟨j, List.mem_cons_self, rfl, le_rfl, hpos⟩)
          have := hall.2.2
          simp only [span] at this hj hend
          omega
      · rintro rfl k y
        refine (or_iff_right ?_).symm
        rintro ⟨j, hj, -⟩
        cases hj
  · obtain ⟨s', he, ht⟩ := taken_inside h hin hz fun hl he => hfirst ⟨hl, he⟩
    refine ⟨s', by rw [asmalloc_eq hs, he], iff_of_true ht ?_⟩
    exact fun _ hl he => absurd ⟨hl, he⟩ hfirst

/-- The promise, for a range that begins behind its entry. -/
theorem past_iff (h : Rep s (l₁ ++ i :: l₂) f) (hpast : (s.span i).hi < x.toNat)
    (hz : 0 < size.toNat) (hti : s.type i = type)
    (hs : s.search addr size type align nelem none s.asmlist = some (some (l₁.getLast?, i, x))) :
    ∃ s', s.asmalloc addr size type align = some (x, s') ∧
      (((∃ j ∈ l₁ ++ i :: l₂, s.type j = type ∧ s.Inside j x size) ∧
        (s.Room → ∀ k y, s'.Mapped k y ↔ s.Mapped k y ∧ ¬ (range x size type).At k y.toNat)) ↔
        ¬ s.Room ∧ ∃ j ∈ l₁ ++ i :: l₂, s.type j = type ∧ s.Inside j x size) := by
  subst hti
  obtain ⟨s', he⟩ := asmalloc_returns h hs
  refine ⟨s', he, ?_⟩
  constructor
  · rintro ⟨⟨j, hj, htj, hin⟩, ht⟩
    refine ⟨fun hroom => ?_, j, hj, htj, hin⟩
    have htop := h.top j hj
    have hend := hin.2
    obtain ⟨r, m, hm, hmap⟩ := taken_past (z := size) h hroom hz hpast (by omega)
    have ho : s.addr i ≠ x := by
      rintro rfl
      simp only [span] at hpast
      omega
    rw [asmalloc_eq hs, if_pos ho, hm] at he
    cases he
    -- the last address was not mapped
    obtain ⟨⟨k, hk, -, -, hlt⟩, -⟩ := (ht hroom _ _).mp hmap
    have htop := h.top k (h.list.mem_of_follows hk)
    have hones : (BitVec.allOnes 64).toNat = 2 ^ 64 - 1 := by decide
    rw [hones] at hlt
    simp only [span] at hlt
    omega
  · rintro ⟨hno, hj⟩
    exact ⟨hj, fun hroom => absurd hroom hno⟩

end

end Map

/-- A bank of memory before the other addresses, as after `asmmapinit`. -/
private def bank : Map where
  addr i := if i = 0 then 0x200000 else 0x100000
  size i := if i = 0 then 0xffffffffffdfffff else 0x100000
  type i := if i = 0 then AsmNONE else AsmMEMORY
  next i := if i = 0 then none else some 0
  asmlist := some 1
  asmfreelist := none
  asmindex := 2

theorem bank_rep : bank.Rep [1, 0] [] where
  list := ⟨rfl, rfl, rfl⟩
  free := rfl
  nodup := by decide
  lt := by decide
  index := by decide
  tidy := tidy_cons.mpr ⟨by decide, tidy_cons.mpr ⟨by decide, .nil, by simp⟩, by
    rintro t ⟨⟩
    exact ⟨by decide, by decide⟩⟩
  top := by decide

end NixMark.Asm
