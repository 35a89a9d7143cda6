import NixMark.Cache.Segs
import NixMark.Devmnt.Write

/-!
# Where the read cache takes a file to end (`port/cache.c`, `mcread`)

A window is fetched page by page, each with requests of at most `iounit` bytes, and a reply that is
short of the count of the first request of all is taken to come to the end of the file. Other
processes may change the segment before `ceof` is called.

* `windowround`, `eofround`, `mcread`: the loops of the source.
* `fetched`: the pages of the window that are not in the cache.
* `Request.least`, `Request.inside`, `Request.tail`: what the reply to a request says.
* `mcread_eof`: when a length that is stored is the file's. If `iounit` does not divide the size of a
  page, the last request for a page is for less than the first, and any reply to it is short.
-/

namespace NixMark.Cache

open Lib Devmnt

def CPGSZ : Nat := 16384

def NREAD : Nat := 2 * CPGSZ

def clen (x : Segment) (len off : Int) : Int :=
  if x.clength < 0 then len
  else if off ≥ x.clength then 0
  else if off + len > x.clength then x.clength - off
  else len

/-! ## The loops -/

/-- The pages to fetch so far. -/
structure Window where
  tot : Nat
  pages : List Nat

/-- A round of the loop over the window. -/
def windowround (cached : Nat → Bool) (off count : Nat) (w : Window) : Round Window (List Nat) :=
  if w.tot < count then
    let addr := (off + w.tot) / CPGSZ * CPGSZ
    if cached addr then .next { w with tot := w.tot + CPGSZ }
    else .next { tot := w.tot + CPGSZ, pages := w.pages ++ [addr] }
  else .done w.pages

/-- The reply of a server whose file has `length` bytes. -/
def served (length : Nat) (r : Req) : Nat := min r.count (length - r.offset).toNat

/-- `rlen` -/
def rlen (length : Nat) (r : Req) : Nat := mntrdwred r (served length r)

/-- A reply is looked at; `r0` is the first request. -/
def eofround (length : Nat) (r0 : Req) (eof : Int) (r : Req) : Int :=
  if rlen length r < r0.count ∧ (eof < 0 ∨ eof > r.offset + rlen length r) then
    r.offset + rlen length r
  else eof

/-- The loop over the replies. -/
def findeof (length : Nat) (reqs : List Req) : Int :=
  reqs.head?.elim (-1) fun r0 => reqs.foldl (eofround length r0) (-1)

/-- `mcread` finds the segment as `x` when it begins and as `y` when it calls `ceof`, which leaves it as
`z`. -/
def mcread (c : Iochan) (length : Nat) (cached : Nat → Bool) (off : Nat) (x y z : Segment) : Prop :=
  ∃ pages reqs,
    Ends (windowround cached off (clen x NREAD off).toNat) { tot := 0, pages := [] } pages ∧
    List.Forall₂ (fun addr => Ends (issueround c CPGSZ (addr : Nat)) { tot := 0, sent := [] })
      pages reqs ∧
    z = if findeof length reqs.flatten ≥ 0 ∧ c.cacheable then ceof y (findeof length reqs.flatten)
      else y

/-! ## Statements -/

/-- The pages of the window that are not cached. -/
def fetched (cached : Nat → Bool) (off count : Nat) : List Nat :=
  ((List.range ((count + CPGSZ - 1) / CPGSZ)).map fun k => (off / CPGSZ + k) * CPGSZ).filter
    fun addr => !cached addr

/-- The segment has a length that is no more than this. -/
def Known (y : Segment) (eof : Nat) : Prop := 0 ≤ y.clength ∧ y.clength ≤ eof

/-- When the length that is found is the file's, or is not stored because a smaller one is known: the
first page fetched that reaches beyond the end of the file does not begin beyond it. Where
`iounit` does not divide the size of a page, the end of the file is in the first page fetched. -/
def Right (c : Iochan) (length : Nat) (pages : List Nat) (y : Segment) : Prop :=
  if c.iounit < CPGSZ ∧ ¬c.iounit ∣ CPGSZ then
    ∀ p ∈ pages.head?, (length < p → Known y p) ∧ (p + CPGSZ < length → Known y (p + CPGSZ))
  else ∀ q ∈ pages.find? fun q => length < q + CPGSZ, length < q → Known y q

/-! ## The window -/

theorem cpgsz_pos : 0 < CPGSZ := by decide

/-- The loop over the window finds the pages that are not cached. -/
theorem window_fetched {cached : Nat → Bool} {off count : Nat} :
    Ends (windowround cached off count) { tot := 0, pages := [] } (fetched cached off count) := by
  have hpos := cpgsz_pos
  have hlt (k : Nat) : k < (count + CPGSZ - 1) / CPGSZ ↔ k * CPGSZ < count := by
    rw [Nat.lt_iff_add_one_le, Nat.le_div_iff_mul_le hpos, Nat.add_mul]
    omega
  have hend : ∃ pages, Ends (windowround cached off count) { tot := 0, pages := [] } pages ∧
      pages = fetched cached off count := by
    refine ends_of (P := fun w => ∃ k, k ≤ (count + CPGSZ - 1) / CPGSZ ∧ w.tot = k * CPGSZ ∧
      w.pages = ((List.range k).map fun k => (off / CPGSZ + k) * CPGSZ).filter
        fun addr => !cached addr) (fun w => count - w.tot) ?_
      ⟨0, Nat.zero_le _, (Nat.zero_mul _).symm, rfl⟩
    rintro ⟨tot, pages⟩ ⟨k, hk, ht, hp⟩
    obtain rfl : tot = k * CPGSZ := ht
    obtain rfl : pages = _ := hp
    unfold windowround
    by_cases hin : k * CPGSZ < count
    · rw [if_pos hin]
      simp only [Nat.add_mul_div_right off k hpos]
      have hk1 : k * CPGSZ + CPGSZ = (k + 1) * CPGSZ := (Nat.succ_mul ..).symm
      have hm : count - (k * CPGSZ + CPGSZ) < count - k * CPGSZ := by omega
      split
      · next hc =>
        refine ⟨⟨k + 1, (hlt k).mpr hin, hk1, ?_⟩, hm⟩
        simp [List.range_succ, hc]
      · next hc =>
        refine ⟨⟨k + 1, (hlt k).mpr hin, hk1, ?_⟩, hm⟩
        simp [List.range_succ, hc]
    · rw [if_neg hin]
      have hk : k = (count + CPGSZ - 1) / CPGSZ := by
        have := mt (hlt k).mp hin
        omega
      show List.filter _ _ = fetched cached off count
      rw [hk]
      rfl
  obtain ⟨_, h, rfl⟩ := hend
  exact h

/-- They do not overlap. -/
theorem fetched_pairwise {cached : Nat → Bool} {off count : Nat} :
    (fetched cached off count).Pairwise fun p q => p + CPGSZ ≤ q := by
  refine List.Pairwise.filter _ (List.pairwise_map.mpr (List.pairwise_lt_range.imp ?_))
  intro j k hjk
  rw [← Nat.succ_mul]
  exact Nat.mul_le_mul_right _ (by omega)

/-! ## A reply -/

section Reply

variable {c : Iochan} {length a k : Nat}

/-- The count of a first request for a page. -/
def firstcount (c : Iochan) : Nat := min c.iounit CPGSZ

theorem chunk_count {n : Nat} {off : Int} :
    (chunk c n off k).count = min c.iounit (n - k * c.iounit) := by
  show (if n - k * c.iounit > c.iounit then c.iounit else n - k * c.iounit) = _
  split <;> omega

theorem chunk_offset {n : Nat} {off : Int} : (chunk c n off k).offset = off + ↑(k * c.iounit) := rfl

theorem rlen_eq {r : Req} : rlen length r = min r.count (length - r.offset).toNat := by
  unfold rlen mntrdwred served
  split <;> omega

/-- The `k`th reply for the page at `a`. -/
theorem rlen_chunk : rlen length (chunk c CPGSZ a k) =
    min (min c.iounit (CPGSZ - k * c.iounit)) (length - (a + k * c.iounit)) := by
  rw [rlen_eq, chunk_count, chunk_offset]
  omega

/-- The reply is short of the first request. -/
def Short (c : Iochan) (length : Nat) (r : Req) : Prop := rlen length r < firstcount c

/-- The end of the file, as the reply to a request has it. -/
def found (length : Nat) (r : Req) : Int := r.offset + rlen length r

/-- A short reply does not find an end before that of the file, or before the page. -/
theorem Short.least (hk : k * c.iounit < CPGSZ) (h : Short c length (chunk c CPGSZ a k)) :
    ((min (max length a) (a + CPGSZ) : Nat) : Int) ≤ found length (chunk c CPGSZ a k) := by
  unfold Short firstcount at h
  unfold found
  rw [rlen_chunk] at h ⊢
  rw [chunk_offset]
  omega

/-- Some reply for a page finds the end of the file if the page reaches beyond it. -/
theorem short_inside (h : length < a + CPGSZ) : ∃ k, k * c.iounit < CPGSZ ∧
    Short c length (chunk c CPGSZ a k) ∧ found length (chunk c CPGSZ a k) = (max length a : Nat) := by
  have hpos := c.pos
  have hle := Nat.div_mul_le_self (length - a) c.iounit
  have hlt := Nat.lt_div_mul_add hpos (a := length - a)
  have hC := cpgsz_pos
  generalize (length - a) / c.iounit = k at hle hlt
  refine ⟨k, by omega, ?_, ?_⟩
  · unfold Short firstcount
    rw [rlen_chunk]
    omega
  · unfold found
    rw [rlen_chunk, chunk_offset]
    omega

/-- The last reply for a page is short if the requests do not fill it up. -/
theorem short_tail (h : c.iounit < CPGSZ ∧ ¬c.iounit ∣ CPGSZ) (hl : a + CPGSZ ≤ length) :
    ∃ k, k * c.iounit < CPGSZ ∧ Short c length (chunk c CPGSZ a k) ∧
      found length (chunk c CPGSZ a k) = (a + CPGSZ : Nat) := by
  have hpos := c.pos
  have hmod := Nat.mod_lt CPGSZ hpos
  have hne : CPGSZ % c.iounit ≠ 0 := fun h0 => h.2 (Nat.dvd_of_mod_eq_zero h0)
  have hdiv := Nat.div_add_mod' CPGSZ c.iounit
  generalize CPGSZ / c.iounit = k at hdiv
  refine ⟨k, by omega, ?_, ?_⟩
  · unfold Short firstcount
    rw [rlen_chunk]
    omega
  · unfold found
    rw [rlen_chunk, chunk_offset]
    omega

/-- Where the requests fill the page up, a short reply is from a page that reaches beyond the file. -/
theorem Short.beyond (h : ¬(c.iounit < CPGSZ ∧ ¬c.iounit ∣ CPGSZ)) (hk : k * c.iounit < CPGSZ)
    (hs : Short c length (chunk c CPGSZ a k)) : length < a + CPGSZ := by
  have hcount : min c.iounit (CPGSZ - k * c.iounit) = firstcount c := by
    unfold firstcount
    by_cases hlt : c.iounit < CPGSZ
    · obtain ⟨m, hm⟩ := not_not.mp fun hd => h ⟨hlt, hd⟩
      rw [Nat.mul_comm] at hm
      have hkm : k < m := by
        by_contra hge
        have := Nat.mul_le_mul_right c.iounit (Nat.le_of_not_lt hge)
        omega
      have := Nat.mul_le_mul_right c.iounit (Nat.succ_le_of_lt hkm)
      rw [Nat.succ_mul] at this
      omega
    · have : k = 0 := by
        by_contra hne
        have := Nat.le_mul_of_pos_left c.iounit (Nat.pos_of_ne_zero hne)
        omega
      subst this
      omega
  have hle : k * c.iounit + firstcount c ≤ CPGSZ := by omega
  unfold Short at hs
  rw [rlen_chunk, hcount] at hs
  omega

end Reply

/-! ## The loop over the replies -/

/-- `eof` is the least end that short replies among these find. -/
def Least (c : Iochan) (length : Nat) (reqs : List Req) (eof : Int) : Prop :=
  (eof = -1 ∧ ∀ r ∈ reqs, ¬Short c length r) ∨
    (0 ≤ eof ∧ (∃ r ∈ reqs, Short c length r ∧ found length r = eof) ∧
      ∀ r ∈ reqs, Short c length r → eof ≤ found length r)

section Replies

variable {c : Iochan} {length : Nat} {reqs : List Req} {r r0 : Req} {eof : Int}

theorem Least.round (h : Least c length reqs eof) (h0 : r0.count = firstcount c)
    (hr : 0 ≤ r.offset) : Least c length (reqs ++ [r]) (eofround length r0 eof r) := by
  have hf : 0 ≤ found length r := by
    unfold found
    omega
  have hshort : rlen length r < r0.count ↔ Short c length r := by rw [h0]; rfl
  unfold eofround
  split
  · next hs =>
    rw [hshort] at hs
    refine .inr ⟨hf, ⟨r, List.mem_append_right _ (List.mem_singleton.mpr rfl), hs.1, rfl⟩, ?_⟩
    intro r' hm hs'
    rcases List.mem_append.mp hm with hm | hm
    · rcases h with ⟨-, hn⟩ | ⟨hpos, -, hall⟩
      · exact absurd hs' (hn r' hm)
      · have := hall r' hm hs'
        have : eof > found length r := hs.2.resolve_left (by omega)
        show found length r ≤ found length r'
        omega
    · cases List.mem_singleton.mp hm
      exact Int.le_refl _
  · next hs =>
    rw [hshort] at hs
    rcases h with ⟨h1, hn⟩ | ⟨hpos, ⟨s, hm, hse⟩, hall⟩
    · have hns : ¬Short c length r := fun h => hs ⟨h, .inl (by omega)⟩
      refine .inl ⟨h1, fun r' hm => ?_⟩
      rcases List.mem_append.mp hm with hm | hm
      · exact hn r' hm
      · cases List.mem_singleton.mp hm
        exact hns
    · refine .inr ⟨hpos, ⟨s, List.mem_append_left _ hm, hse⟩, fun r' hm hs' => ?_⟩
      rcases List.mem_append.mp hm with hm | hm
      · exact hall r' hm hs'
      · cases List.mem_singleton.mp hm
        have : ¬eof > found length r := fun h => hs ⟨hs', .inr h⟩
        omega

theorem Least.replies {more : List Req} (h : Least c length reqs eof) (h0 : r0.count = firstcount c)
    (hr : ∀ r ∈ more, 0 ≤ r.offset) :
    Least c length (reqs ++ more) (more.foldl (eofround length r0) eof) := by
  induction more generalizing reqs eof with
  | nil =>
    rw [List.append_nil]
    exact h
  | cons r more ih =>
    obtain ⟨hr, hmore⟩ := List.forall_mem_cons.mp hr
    have := ih (h.round h0 hr) hmore
    rw [List.append_assoc] at this
    exact this

/-- The requests for these pages. -/
def requests (c : Iochan) (pages : List Nat) : List Req :=
  pages.flatMap fun a => chunks c CPGSZ (a : Nat)

theorem mem_requests {pages : List Nat} : r ∈ requests c pages ↔
    ∃ a ∈ pages, ∃ k, k * c.iounit < CPGSZ ∧ chunk c CPGSZ (a : Nat) k = r := by
  simp only [requests, chunks, List.mem_flatMap, List.mem_map, List.mem_range, lt_nchunks]

theorem findeof_least (pages : List Nat) :
    Least c length (requests c pages) (findeof length (requests c pages)) := by
  cases pages with
  | nil => exact .inl ⟨rfl, fun r hr => nomatch hr⟩
  | cons a pages =>
    have hC := cpgsz_pos
    have hn : 0 < nchunks c CPGSZ := lt_nchunks.mpr (by omega)
    have hhead : (requests c (a :: pages)).head? = some (chunk c CPGSZ (a : Nat) 0) := by
      obtain ⟨m, hm⟩ := Nat.exists_eq_succ_of_ne_zero (Nat.pos_iff_ne_zero.mp hn)
      simp only [requests, List.flatMap_cons, chunks, hm, List.range_succ_eq_map, List.map_cons,
        List.cons_append, List.head?_cons]
    unfold findeof
    rw [hhead]
    have hnone : Least c length [] (-1) := .inl ⟨rfl, fun r hr => (List.not_mem_nil hr).elim⟩
    refine hnone.replies ?_ ?_
    · rw [chunk_count, Nat.zero_mul]
      rfl
    · intro r (hr : r ∈ requests c (a :: pages))
      obtain ⟨b, -, k, -, rfl⟩ := mem_requests.mp hr
      rw [chunk_offset]
      omega

end Replies

/-! ## What is stored -/

section Stored

variable {c : Iochan} {length : Nat} {pages : List Nat}

theorem Least.eq {reqs : List Req} {eof : Int} {e : Nat} (h : Least c length reqs eof)
    (hs : ∃ r ∈ reqs, Short c length r ∧ found length r = e)
    (hall : ∀ r ∈ reqs, Short c length r → (e : Int) ≤ found length r) : eof = e := by
  obtain ⟨r, hr, hrs, he⟩ := hs
  rcases h with ⟨-, hn⟩ | ⟨-, ⟨r', hr', hs', he'⟩, hle⟩
  · exact absurd hrs (hn r hr)
  · have := hall r' hr' hs'
    have := hle r hr hrs
    omega

/-- The requests do not fill up the pages: the end is taken to be in the first page. -/
theorem findeof_tail (hd : c.iounit < CPGSZ ∧ ¬c.iounit ∣ CPGSZ) {p : Nat}
    (hp : (p :: pages).Pairwise fun p q => p + CPGSZ ≤ q) :
    findeof length (requests c (p :: pages)) = (min (max length p) (p + CPGSZ) : Nat) := by
  refine (findeof_least (p :: pages)).eq ?_ ?_
  · by_cases hl : length < p + CPGSZ
    · obtain ⟨k, hk, hs, hf⟩ := short_inside (c := c) hl
      refine ⟨_, mem_requests.mpr ⟨p, List.mem_cons_self, k, hk, rfl⟩, hs, hf.trans ?_⟩
      have hC := cpgsz_pos
      omega
    · obtain ⟨k, hk, hs, hf⟩ := short_tail (a := p) hd (Nat.le_of_not_lt hl)
      refine ⟨_, mem_requests.mpr ⟨p, List.mem_cons_self, k, hk, rfl⟩, hs, hf.trans ?_⟩
      omega
  · intro r hr hs
    obtain ⟨a, ha, k, hk, rfl⟩ := mem_requests.mp hr
    have hle := hs.least hk
    have hpa : p = a ∨ p + CPGSZ ≤ a := (List.mem_cons.mp ha).imp Eq.symm
      (List.rel_of_pairwise_cons hp)
    omega

/-- The requests fill up the pages: the end is found in the first page that reaches beyond it. -/
theorem findeof_whole (hd : ¬(c.iounit < CPGSZ ∧ ¬c.iounit ∣ CPGSZ))
    (hp : pages.Pairwise fun p q => p + CPGSZ ≤ q) :
    findeof length (requests c pages) =
      ((pages.find? fun q => length < q + CPGSZ).elim (-1) fun q => ((max length q : Nat) : Int)) := by
  cases hq : pages.find? fun q => length < q + CPGSZ with
  | none =>
    have hleast : Least c length (requests c pages) (findeof length (requests c pages)) :=
      findeof_least pages
    rcases hleast with ⟨he, -⟩ | ⟨-, ⟨r, hr, hs, -⟩, -⟩
    · exact he
    · obtain ⟨a, ha, k, hk, rfl⟩ := mem_requests.mp hr
      have hb := hs.beyond hd hk
      exact absurd (decide_eq_true hb) (List.find?_eq_none.mp hq a ha)
  | some q =>
    obtain ⟨hin, before, after, rfl, hbefore⟩ := List.find?_eq_some_iff_append.mp hq
    have hin : length < q + CPGSZ := of_decide_eq_true hin
    refine (findeof_least _).eq ?_ ?_
    · obtain ⟨k, hk, hs, hf⟩ := short_inside (c := c) hin
      exact ⟨_, mem_requests.mpr ⟨q, List.mem_append_right _ List.mem_cons_self, k, hk, rfl⟩, hs, hf⟩
    · intro r hr hs
      obtain ⟨a, ha, k, hk, rfl⟩ := mem_requests.mp hr
      have hle := hs.least hk
      have hb := hs.beyond hd hk
      have hqa : q ≤ a := by
        rcases List.mem_append.mp ha with ha | ha
        · have := hbefore a ha
          simp only [Bool.not_eq_true', decide_eq_false_iff_not] at this
          omega
        · rcases List.mem_cons.mp ha with rfl | ha
          · exact Nat.le_refl a
          · have := List.rel_of_pairwise_cons (List.pairwise_append.mp hp).2.1 ha
            omega
      omega

/-- `ceof` leaves the length of the file, or what was there. -/
theorem ceof_right {y : Segment} {e : Nat} :
    ((ceof y e).clength ≠ y.clength → (ceof y e).clength = length) ↔ (e = length ∨ Known y e) := by
  unfold ceof Known
  split
  · next h =>
    show ((e : Int) ≠ y.clength → (e : Int) = length) ↔ _
    constructor
    · intro he
      refine .inl ?_
      have := he (by omega)
      omega
    · rintro (rfl | h) <;> omega
  · next h =>
    refine iff_of_true (fun hne => absurd rfl hne) ?_
    omega

end Stored

/-- The requests that are issued for these pages. -/
theorem issued {c : Iochan} {pages : List Nat} {reqs : List (List Req)} :
    List.Forall₂ (fun addr => Ends (issueround c CPGSZ (addr : Nat)) { tot := 0, sent := [] })
      pages reqs ↔ reqs = pages.map fun a => chunks c CPGSZ (a : Nat) := by
  constructor
  · intro h
    induction h with
    | nil => rfl
    | cons hr _ ih => rw [List.map_cons, ← ih, hr.unique cwrite_chunks]
  · rintro rfl
    induction pages with
    | nil => exact .nil
    | cons a pages ih => exact .cons cwrite_chunks ih

/-- `mcread` leaves one segment, and where the length in it changes it is the file's exactly when the
pages to fetch are right. -/
theorem mcread_eof (c : Iochan) (length : Nat) (cached : Nat → Bool) (off : Nat) (x y : Segment) :
    ∃ z, (∀ z', mcread c length cached off x y z' ↔ z' = z) ∧
      ((z.clength ≠ y.clength → z.clength = length) ↔
        (c.cacheable = true → Right c length (fetched cached off (clen x NREAD off).toNat) y)) := by
  have hpair : (fetched cached off (clen x NREAD off).toNat).Pairwise fun p q => p + CPGSZ ≤ q :=
    fetched_pairwise
  have hloop : Ends (windowround cached off (clen x NREAD off).toNat) { tot := 0, pages := [] }
    (fetched cached off (clen x NREAD off).toNat) := window_fetched
  generalize fetched cached off (clen x NREAD off).toNat = pages at hpair hloop
  refine ⟨if findeof length (requests c pages) ≥ 0 ∧ c.cacheable then
    ceof y (findeof length (requests c pages)) else y, fun z' => ?_, ?_⟩
  · constructor
    · rintro ⟨pages', reqs, hw, hr, rfl⟩
      cases hw.unique hloop
      cases issued.mp hr
      rfl
    · rintro rfl
      exact ⟨pages, _, hloop, issued.mpr rfl, rfl⟩
  · cases hc : c.cacheable with
    | false => simp
    | true =>
      simp only [and_true, true_implies]
      unfold Right
      by_cases hd : c.iounit < CPGSZ ∧ ¬c.iounit ∣ CPGSZ
      · rw [if_pos hd]
        cases pages with
        | nil => exact iff_of_true (fun h => absurd rfl h) (fun p hp => nomatch hp)
        | cons p pages =>
          rw [findeof_tail hd hpair, if_pos (Int.natCast_nonneg _), ceof_right]
          simp only [List.head?_cons, Option.mem_some_iff, forall_eq']
          constructor
          · rintro (he | hk)
            · exact ⟨fun h => by omega, fun h => by omega⟩
            · refine ⟨fun h => ?_, fun h => ?_⟩
              · rwa [Nat.max_eq_right (by omega), Nat.min_eq_left (by omega)] at hk
              · rwa [Nat.min_eq_right (by omega)] at hk
          · rintro ⟨hlow, hhigh⟩
            by_cases h1 : length < p
            · rw [Nat.max_eq_right (by omega), Nat.min_eq_left (by omega)]
              exact .inr (hlow h1)
            · by_cases h2 : p + CPGSZ < length
              · rw [Nat.min_eq_right (by omega)]
                exact .inr (hhigh h2)
              · exact .inl (by omega)
      · rw [if_neg hd]
        have he : findeof length (requests c pages) =
          ((pages.find? fun q => length < q + CPGSZ).elim (-1) fun q =>
            ((max length q : Nat) : Int)) := findeof_whole hd hpair
        cases hq : pages.find? fun q => length < q + CPGSZ with
        | none =>
          rw [hq] at he
          have he : findeof length (requests c pages) = -1 := he
          rw [he]
          exact iff_of_true (fun h => absurd rfl h) (fun q hq => nomatch hq)
        | some q =>
          rw [hq] at he
          have he : findeof length (requests c pages) = (max length q : Nat) := he
          simp only [Option.mem_some_iff, forall_eq']
          rw [he, if_pos (Int.natCast_nonneg _), ceof_right]
          constructor
          · rintro (he | hk) h
            · omega
            · rwa [Nat.max_eq_right (by omega)] at hk
          · intro h
            by_cases h1 : length < q
            · rw [Nat.max_eq_right (by omega)]
              exact .inr (h h1)
            · exact .inl (by omega)

/-! ### A message size that does not divide a page -/

private def odd : Iochan where
  iounit := 8168
  cacheable := true
  pos := by decide

/-- A file that is not cached yet, of the version of the channel. -/
private def unknown : Segment where
  ref := 2
  used := true
  cqid := { path := 1, vers := 0, type := 0 }
  cdev := 1
  clength := -1
  nbytes := 0
  pages := []

/-- A file of 40000 bytes is taken to end with its first page. -/
theorem mcread_tail : ¬∀ (c : Iochan) (length : Nat) (cached : Nat → Bool) (off : Nat)
    (x y z : Segment), mcread c length cached off x y z → z.clength ≠ y.clength →
      z.clength = length := by
  intro h
  have hw : Ends (windowround (fun _ => false) 0 (clen unknown NREAD 0).toNat)
      { tot := 0, pages := [] } [0, 16384] := ⟨3, by decide⟩
  have hr := h odd 40000 (fun _ => false) 0 unknown unknown _
    ⟨[0, 16384], _, hw, issued.mpr rfl, rfl⟩
  exact absurd (hr (by decide)) (by decide)

end NixMark.Cache
