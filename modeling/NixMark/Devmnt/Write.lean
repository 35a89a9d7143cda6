import Mathlib.Algebra.Group.Nat.Defs
import Mathlib.Algebra.Ring.Int.Defs
import NixMark.Lib.While

/-!
# Writes through the mount driver (`port/devmnt.c`, `port/cache.c`)

The server's answer to a request is the count of an `Rwrite`, or none where the reply is an error.
Lengths are not negative.

* `mntrdwring`, `mntrdwred`: what a request asks for, and what its reply counts for.
* `writeround`, `issueround`, `mntwrite`: the two paths of `mntwrite`.
* `Reports`: the value returned is what the server has accepted from the offset on.
* `mntwrite_reports`: when that is so. `mntrdwring` cuts a request to `iounit` and `mntwrite` takes
  that for a short write; `cwrite` adds up replies that come after a short one.
-/

namespace NixMark.Devmnt

open Lib

/-- A request to read or write; `data` is where it begins in the buffer. -/
structure Req where
  data : Nat
  offset : Int
  count : Nat
deriving DecidableEq

/-- A channel of the mount driver; `mntopencreate` gives it a size for i/o that is not 0. -/
structure Iochan where
  iounit : Nat
  cacheable : Bool
  pos : 0 < iounit

/-- A request for `n` bytes. -/
def mntrdwring (c : Iochan) (data n : Nat) (off : Int) : Req where
  data := data
  offset := off
  count := if n > c.iounit then c.iounit else n

/-- What a reply that counts `n` bytes is taken for. -/
def mntrdwred (r : Req) (n : Nat) : Nat := if n < r.count then n else r.count

/-- The counts in the server's replies. -/
abbrev Server := Req → Option Nat

/-- The bytes of a request that the server accepted, if the reply is no error. -/
def Server.took (srv : Server) (r : Req) : Option Nat := (srv r).map (mntrdwred r)

/-- What a write has sent, and what it returns if it raises no error. -/
structure Written where
  sent : List Req
  ret : Option Nat
deriving DecidableEq

/-! ## The functions of the source -/

/-- The state of a loop over the buffer: the bytes done, and the requests. -/
structure Progress where
  tot : Nat
  sent : List Req

variable (c : Iochan) (srv : Server) (n : Nat) (off : Int)

/-- A round of the loop of `mntwrite`. -/
def writeround (w : Progress) : Round Progress Written :=
  if w.tot < n then
    let r := mntrdwring c w.tot (n - w.tot) (off + w.tot)
    match srv.took r with
    | none => .done { sent := w.sent ++ [r], ret := none }
    | some nw =>
      if nw ≠ n - w.tot then .done { sent := w.sent ++ [r], ret := some w.tot }
      else .next { tot := w.tot + nw, sent := w.sent ++ [r] }
  else .done { sent := w.sent, ret := some w.tot }

/-- A round of the loop that issues requests, in `cwrite` and for a page in `mcread`. -/
def issueround (w : Progress) : Round Progress (List Req) :=
  if w.tot < n then
    let r := mntrdwring c w.tot (n - w.tot) (off + w.tot)
    .next { tot := w.tot + r.count, sent := w.sent ++ [r] }
  else .done w.sent

/-- The replies are added up. -/
def replied : List Req → Option Nat
  | [] => some 0
  | r :: sent => (srv.took r).bind fun nw => (replied sent).map (nw + ·)

/-- `mntwrite`: the cached path is `cwrite`. -/
def mntwrite (w : Written) : Prop :=
  if c.cacheable then
    Ends (issueround c n off) { tot := 0, sent := [] } w.sent ∧ w.ret = replied srv w.sent
  else Ends (writeround c srv n off) { tot := 0, sent := [] } w

/-! ## Statements -/

/-- The `i`th byte of the buffer was accepted for the place `pos` of the file. -/
def Accepted (sent : List Req) (i : Nat) (pos : Int) : Prop :=
  ∃ r ∈ sent, ∃ nw ∈ srv.took r, ∃ j < nw, r.data + j = i ∧ r.offset + j = pos

/-- Requests that send the buffer from `data` on, in order and at consecutive offsets. -/
def InOrder (n : Nat) (off : Int) : Nat → List Req → Prop
  | data, [] => data = n
  | data, r :: sent => r.data = data ∧ r.offset = off + data ∧ InOrder n off (data + r.count) sent

/-- If everything was accepted, the write sent the whole buffer and returns its length; and if it
returns a value, this is the number of bytes accepted from `off` on with no gap. -/
structure Reports (w : Written) : Prop where
  full : (∀ r ∈ w.sent, srv.took r = some r.count) → w.ret = some n ∧ InOrder n off 0 w.sent
  exact : ∀ tot ∈ w.ret, (∀ i < tot, Accepted srv w.sent i (off + i)) ∧
    ∀ i, ¬Accepted srv w.sent i (off + tot)

/-- The number of requests of a cached write. -/
def nchunks : Nat := (n + c.iounit - 1) / c.iounit

/-- The `k`th of them. -/
def chunk (k : Nat) : Req :=
  mntrdwring c (k * c.iounit) (n - k * c.iounit) (off + ↑(k * c.iounit))

def chunks : List Req := (List.range (nchunks c n)).map (chunk c n off)

/-- Without the cache: the write fits a request that is accepted in full, or nothing is accepted. With
it: nothing is accepted after a request that is not accepted in full. A reply that is an error
leaves nothing to return. -/
def Heeded : Prop :=
  if c.cacheable then
    (∃ r ∈ chunks c n off, srv.took r = none) ∨
      (chunks c n off).Pairwise fun r r' => srv.took r = some r.count ∨ srv.took r' = some 0
  else
    n = 0 ∨ srv.took (mntrdwring c 0 n off) = none ∨ srv.took (mntrdwring c 0 n off) = some 0 ∨
      n ≤ c.iounit ∧ srv.took (mntrdwring c 0 n off) = some n

variable {c srv n off}

theorem Server.took_le {r : Req} {nw : Nat} (h : srv.took r = some nw) : nw ≤ r.count := by
  obtain ⟨k, -, rfl⟩ := Option.map_eq_some_iff.mp h
  unfold mntrdwred
  split <;> omega

/-! ## Requests one after another -/

theorem accepted_cons {r : Req} {sent : List Req} {i : Nat} {pos : Int} :
    Accepted srv (r :: sent) i pos ↔
      (∃ nw ∈ srv.took r, ∃ j < nw, r.data + j = i ∧ r.offset + j = pos) ∨
        Accepted srv sent i pos := by
  unfold Accepted
  simp only [List.mem_cons, exists_eq_or_imp]

/-- Replies that add up to nothing accept nothing. -/
theorem replied_zero {sent : List Req} :
    replied srv sent = some 0 ↔ ∀ r ∈ sent, srv.took r = some 0 := by
  induction sent with
  | nil => exact ⟨fun _ _ h => (nomatch h), fun _ => rfl⟩
  | cons r sent ih =>
    rw [List.forall_mem_cons, ← ih, replied]
    constructor
    · intro h
      obtain ⟨nw, hr, hs⟩ := Option.bind_eq_some_iff.mp h
      obtain ⟨tot, ht, h0⟩ := Option.map_eq_some_iff.mp hs
      obtain ⟨rfl, rfl⟩ := Nat.add_eq_zero_iff.mp h0
      exact ⟨hr, ht⟩
    · rintro ⟨hr, ht⟩
      rw [hr, ht]
      rfl

theorem not_accepted {sent : List Req} {i : Nat} {pos : Int} (h : ∀ r ∈ sent, srv.took r = some 0) :
    ¬Accepted srv sent i pos := by
  rintro ⟨r, hr, nw, hnw, j, hj, -⟩
  cases (h r hr).symm.trans hnw
  omega

namespace InOrder

variable {r : Req} {sent : List Req} {data i tot : Nat} {pos : Int}

/-- A byte is accepted for its place, and none before the requests. -/
theorem place (h : InOrder n off data sent) (ha : Accepted srv sent i pos) :
    data ≤ i ∧ pos = off + i := by
  induction sent generalizing data with
  | nil =>
    obtain ⟨r, hr, -⟩ := ha
    cases hr
  | cons r sent ih =>
    obtain ⟨hd, ho, h⟩ := h
    rcases accepted_cons.mp ha with ⟨nw, -, j, -, hi, hp⟩ | ha
    · omega
    · have := ih h ha
      omega

theorem accepted_head {nw : Nat} (h : InOrder n off data (r :: sent)) (hr : srv.took r = some nw) :
    Accepted srv (r :: sent) i (off + i) ↔
      (data ≤ i ∧ i < data + nw) ∨ Accepted srv sent i (off + i) := by
  obtain ⟨hd, ho, h⟩ := h
  rw [accepted_cons]
  refine or_congr_left ⟨?_, fun hi => ⟨nw, hr, i - data, by omega⟩⟩
  rintro ⟨nw', hnw, j, hj, hi, -⟩
  cases hr.symm.trans hnw
  omega

/-- Replies that are all full add up to what is sent. -/
theorem replied_full (h : InOrder n off data sent) (hf : ∀ r ∈ sent, srv.took r = some r.count) :
    ∃ tot, replied srv sent = some tot ∧ data + tot = n := by
  induction sent generalizing data with
  | nil => exact ⟨0, rfl, h⟩
  | cons r sent ih =>
    obtain ⟨-, -, h⟩ := h
    obtain ⟨tot, ht, hn⟩ := ih h fun r hr => hf r (List.mem_cons_of_mem _ hr)
    refine ⟨r.count + tot, ?_, by omega⟩
    rw [replied, hf r List.mem_cons_self, ht]
    rfl

/-- The replies add up to the bytes accepted with no gap when none counts after a short one. -/
theorem exact_iff (h : InOrder n off data sent) (ht : replied srv sent = some tot) :
    ((∀ i, data ≤ i → i < data + tot → Accepted srv sent i (off + i)) ∧
        ¬Accepted srv sent (data + tot) (off + ↑(data + tot))) ↔
      sent.Pairwise fun r r' => srv.took r = some r.count ∨ srv.took r' = some 0 := by
  induction sent generalizing data tot with
  | nil =>
    cases ht
    refine ⟨fun _ => .nil, fun _ => ⟨fun i => by omega, ?_⟩⟩
    rintro ⟨r, hr, -⟩
    cases hr
  | cons r sent ih =>
    obtain ⟨nw, hr, hs⟩ := Option.bind_eq_some_iff.mp ht
    obtain ⟨rest, hrest, rfl⟩ := Option.map_eq_some_iff.mp hs
    have hle := Server.took_le hr
    have hafter (i : Nat) (ha : Accepted srv sent i (off + i)) : data + r.count ≤ i :=
      (h.2.2.place ha).1
    simp only [h.accepted_head hr]
    rw [List.pairwise_cons]
    by_cases hfull : nw = r.count
    · -- accepted in full: a gap is one between the others
      subst hfull
      have ih := ih h.2.2 hrest
      rw [Nat.add_assoc] at ih
      rw [← ih]
      constructor
      · rintro ⟨hall, hend⟩
        refine ⟨fun r' _ => .inl hr, fun i hi hlt => ?_, fun ha => hend (.inr ha)⟩
        exact (hall i (by omega) hlt).resolve_left (by omega)
      · rintro ⟨-, hall, hend⟩
        refine ⟨fun i hi hlt => ?_, fun ha => hend (ha.resolve_left (by omega))⟩
        by_cases hin : i < data + r.count
        · exact .inl ⟨hi, hin⟩
        · exact .inr (hall i (by omega) hlt)
    · -- the gap is here, so that nothing may be accepted after it
      have hgap : ¬Accepted srv sent (data + nw) (off + ↑(data + nw)) := fun ha => by
        have := hafter _ ha
        omega
      constructor
      · rintro ⟨hall, -⟩
        have h0 : rest = 0 := by
          by_contra hne
          rcases hall (data + nw) (by omega) (by omega) with hin | ha
          · omega
          · exact hgap ha
        subst h0
        have hz := replied_zero.mp hrest
        exact ⟨fun r' hr' => .inr (hz r' hr'), List.pairwise_of_forall_mem_list
          fun r' _ r'' hr'' => .inr (hz r'' hr'')⟩
      · rintro ⟨hz, -⟩
        have hz : ∀ r' ∈ sent, srv.took r' = some 0 := fun r' hr' => (hz r' hr').resolve_left
          fun hc => hfull (Option.some.inj (hr.symm.trans hc))
        cases hrest.symm.trans (replied_zero.mpr hz)
        exact ⟨fun i hi hlt => .inl ⟨hi, hlt⟩, fun ha => ha.elim (by omega) (not_accepted hz)⟩

end InOrder

/-- Some reply is an error and there is nothing to add up. -/
theorem replied_none {sent : List Req} :
    replied srv sent = none ↔ ∃ r ∈ sent, srv.took r = none := by
  induction sent with
  | nil => exact iff_of_false (nomatch ·) (by simp)
  | cons r sent ih =>
    simp only [replied, List.mem_cons, exists_eq_or_imp]
    rw [← ih]
    cases srv.took r <;> simp

/-- What is returned when the replies to requests for the whole buffer are added up. -/
theorem reports_replied {sent : List Req} (h : InOrder n off 0 sent) :
    Reports srv n off { sent := sent, ret := replied srv sent } ↔
      (∃ r ∈ sent, srv.took r = none) ∨
        sent.Pairwise fun r r' => srv.took r = some r.count ∨ srv.took r' = some 0 := by
  rw [← replied_none]
  cases ht : replied srv sent with
  | none =>
    refine iff_of_true ⟨fun hf => ?_, fun tot h => nomatch h⟩ (.inl rfl)
    obtain ⟨tot, hs, -⟩ := h.replied_full hf
    cases ht.symm.trans hs
  | some tot =>
    have hex := h.exact_iff ht
    simp only [Nat.zero_add, Nat.zero_le, true_implies] at hex
    rw [← hex]
    constructor
    · exact fun hr => .inr ⟨(hr.exact tot rfl).1, (hr.exact tot rfl).2 tot⟩
    · rintro (h0 | ⟨hall, hend⟩)
      · cases h0
      · refine ⟨fun hf => ⟨?_, h⟩, ?_⟩
        · obtain ⟨tot', hs, hn⟩ := h.replied_full hf
          cases ht.symm.trans hs
          exact congrArg some (by omega)
        · rintro _ ⟨⟩
          refine ⟨hall, fun i ha => ?_⟩
          obtain ⟨-, hp⟩ := h.place ha
          have hi : i = tot := by omega
          exact hend (hi ▸ ha)

/-! ## The path without the cache -/

theorem count_le {data : Nat} : (mntrdwring c data n off).count ≤ n := by
  show (if n > c.iounit then c.iounit else n) ≤ n
  split <;> omega

theorem count_pos {data : Nat} (hn : 0 < n) : 0 < (mntrdwring c data n off).count := by
  have hpos := c.pos
  show 0 < if n > c.iounit then c.iounit else n
  split <;> omega

theorem count_full {data : Nat} : (mntrdwring c data n off).count = n ↔ n ≤ c.iounit := by
  show (if n > c.iounit then c.iounit else n) = n ↔ _
  split <;> omega

/-- A request that was not accepted in full, and what is returned then. -/
theorem reports_first {nw : Nat} (hn : 0 < n)
    (hr : srv.took (mntrdwring c 0 n off) = some nw) :
    Reports srv n off { sent := [mntrdwring c 0 n off], ret := some 0 } ↔ nw = 0 := by
  have hpos : 0 < (mntrdwring c 0 n off).count := count_pos hn
  have hacc (i : Nat) (pos : Int) : Accepted srv [mntrdwring c 0 n off] i pos ↔
      i < nw ∧ pos = off + i := by
    constructor
    · rintro ⟨r, hm, nw', hnw, j, hj, hi, hp⟩
      cases List.mem_singleton.mp hm
      cases hr.symm.trans hnw
      cases hp
      have hi : 0 + j = i := hi
      rw [Nat.zero_add] at hi
      exact ⟨hi ▸ hj, by rw [hi]; rfl⟩
    · rintro ⟨hi, hp⟩
      exact ⟨_, List.mem_singleton.mpr rfl, nw, hr, i, hi, Nat.zero_add i, hp.symm⟩
  constructor
  · intro h
    by_contra hne
    refine (h.exact 0 rfl).2 0 ((hacc 0 _).mpr ⟨by omega, by omega⟩)
  · rintro rfl
    refine ⟨fun hf => ?_, ?_⟩
    · have := Option.some.inj (hr.symm.trans (hf _ (List.mem_singleton.mpr rfl)))
      omega
    · rintro tot ⟨⟩
      refine ⟨fun i hi => by omega, fun i ha => ?_⟩
      have := (hacc i _).mp ha
      omega

theorem uncached (hc : c.cacheable = false) :
    ∃ w, Ends (writeround c srv n off) { tot := 0, sent := [] } w ∧
      (Reports srv n off w ↔ Heeded c srv n off) := by
  have hcond : Heeded c srv n off ↔ n = 0 ∨ srv.took (mntrdwring c 0 n off) = none ∨
      srv.took (mntrdwring c 0 n off) = some 0 ∨
      n ≤ c.iounit ∧ srv.took (mntrdwring c 0 n off) = some n := by
    unfold Heeded
    rw [hc, if_neg Bool.false_ne_true]
  rw [hcond]
  rcases Nat.eq_zero_or_pos n with rfl | hn
  · refine ⟨{ sent := [], ret := some 0 }, ⟨1, rfl⟩, iff_of_true ⟨fun _ => ⟨rfl, rfl⟩, ?_⟩ (.inl rfl)⟩
    rintro tot ⟨⟩
    exact ⟨fun i hi => by omega, fun i => not_accepted fun r hr => nomatch hr⟩
  · have hround : writeround c srv n off { tot := 0, sent := [] } =
        match srv.took (mntrdwring c 0 n off) with
        | none => .done { sent := [mntrdwring c 0 n off], ret := none }
        | some nw =>
          if nw ≠ n then .done { sent := [mntrdwring c 0 n off], ret := some 0 }
          else .next { tot := nw, sent := [mntrdwring c 0 n off] } := by
      unfold writeround
      simp only [if_pos hn, Nat.sub_zero, Nat.zero_add, List.nil_append, Nat.cast_zero, add_zero]
    cases hr : srv.took (mntrdwring c 0 n off) with
    | none =>
      rw [hr] at hround
      refine ⟨_, (ends_done hround).mpr rfl, iff_of_true ⟨fun hf => ?_, fun tot h => nomatch h⟩
        (.inr (.inl rfl))⟩
      exact absurd (hr.symm.trans (hf _ (List.mem_singleton.mpr rfl))) (by simp)
    | some nw =>
      rw [hr] at hround
      by_cases hfull : nw = n
      · subst hfull
        have hle := Server.took_le hr
        have hcount : (mntrdwring c 0 nw off).count = nw := Nat.le_antisymm count_le hle
        have hround : writeround c srv nw off { tot := 0, sent := [] } =
            .next { tot := nw, sent := [mntrdwring c 0 nw off] } :=
          hround.trans (if_neg (not_not.mpr rfl))
        have hdone : writeround c srv nw off { tot := nw, sent := [mntrdwring c 0 nw off] } =
            .done { sent := [mntrdwring c 0 nw off], ret := some nw } := if_neg (Nat.lt_irrefl nw)
        have hin : InOrder nw off 0 [mntrdwring c 0 nw off] :=
          ⟨rfl, (add_zero off).symm, by show 0 + (mntrdwring c 0 nw off).count = nw; omega⟩
        have hsum : replied srv [mntrdwring c 0 nw off] = some nw := by
          simp only [replied, hr, Option.bind_some, Option.map_some, Nat.add_zero]
        refine ⟨_, (ends_next hround).mpr ((ends_done hdone).mpr rfl), iff_of_true ?_
          (.inr (.inr (.inr ⟨count_full.mp hcount, rfl⟩)))⟩
        rw [← hsum]
        exact (reports_replied hin).mpr (.inr (List.pairwise_singleton ..))
      · have hround : writeround c srv n off { tot := 0, sent := [] } =
            .done { sent := [mntrdwring c 0 n off], ret := some 0 } := hround.trans (if_pos hfull)
        refine ⟨_, (ends_done hround).mpr rfl, (reports_first hn hr).trans ?_⟩
        constructor
        · rintro rfl
          exact .inr (.inr (.inl rfl))
        · rintro (h | h | h | ⟨-, h⟩)
          · omega
          · cases h
          · exact Option.some.inj h
          · exact absurd (Option.some.inj h) hfull

/-! ## The path through the cache -/

theorem lt_nchunks {k : Nat} : k < nchunks c n ↔ k * c.iounit < n := by
  have hpos := c.pos
  unfold nchunks
  rw [Nat.lt_iff_add_one_le, Nat.le_div_iff_mul_le hpos, Nat.add_mul]
  omega

theorem chunk_end {k : Nat} (hk : k * c.iounit < n) :
    k * c.iounit + (chunk c n off k).count = min ((k + 1) * c.iounit) n := by
  rw [Nat.add_mul]
  show k * c.iounit + (if n - k * c.iounit > c.iounit then c.iounit else n - k * c.iounit) = _
  split <;> omega

/-- The first loop makes these requests. -/
theorem cwrite_chunks : Ends (issueround c n off) { tot := 0, sent := [] } (chunks c n off) := by
  have hend : ∃ reqs, Ends (issueround c n off) { tot := 0, sent := [] } reqs ∧
      reqs = chunks c n off := by
    refine ends_of (P := fun w => ∃ k, k ≤ nchunks c n ∧ w.tot = min (k * c.iounit) n ∧
      w.sent = (List.range k).map (chunk c n off)) (fun w => n - w.tot) ?_
      ⟨0, Nat.zero_le _, by rw [Nat.zero_mul, Nat.zero_min], rfl⟩
    rintro ⟨tot, sent⟩ ⟨k, hk, ht, hs⟩
    cases hs
    have ht : tot = min (k * c.iounit) n := ht
    unfold issueround
    by_cases hlt : tot < n
    · have hkn : k * c.iounit < n := by omega
      have ht : tot = k * c.iounit := by omega
      subst ht
      have hp : 0 < (chunk c n off k).count := count_pos (Nat.sub_pos_of_lt hkn)
      have he : k * c.iounit + (chunk c n off k).count = min ((k + 1) * c.iounit) n :=
        chunk_end hkn
      rw [if_pos hlt]
      refine ⟨⟨k + 1, lt_nchunks.mpr hkn, he, ?_⟩, ?_⟩
      · rw [List.range_succ, List.map_append]
        rfl
      · show n - (k * c.iounit + (chunk c n off k).count) < n - k * c.iounit
        omega
    · have hkn : ¬k < nchunks c n := fun h => by
        have := lt_nchunks.mp h
        omega
      rw [if_neg hlt]
      have hk : k = nchunks c n := by omega
      show (List.range k).map (chunk c n off) = chunks c n off
      rw [hk]
      rfl
  obtain ⟨_, h, rfl⟩ := hend
  exact h

theorem chunks_inorder : InOrder n off 0 (chunks c n off) := by
  have h (m k : Nat) (hm : k + m = nchunks c n) :
      InOrder n off (min (k * c.iounit) n) ((List.range' k m).map (chunk c n off)) := by
    induction m generalizing k with
    | zero =>
      have hk : ¬k * c.iounit < n := fun h => by
        have := lt_nchunks.mpr h
        omega
      show min (k * c.iounit) n = n
      omega
    | succ m ih =>
      have hk : k * c.iounit < n := lt_nchunks.mp (by omega)
      have hmin : min (k * c.iounit) n = k * c.iounit := by omega
      rw [List.range'_succ, List.map_cons, hmin]
      refine ⟨rfl, rfl, ?_⟩
      rw [chunk_end hk]
      exact ih (k + 1) (by omega)
  have h0 := h (nchunks c n) 0 (Nat.zero_add _)
  rw [Nat.zero_mul, Nat.zero_min, ← List.range_eq_range'] at h0
  exact h0

/-! ## Both -/

/-- `mntwrite` ends with one result, and it reports what was written when the server's answers are
among those that it heeds. -/
theorem mntwrite_reports (c : Iochan) (srv : Server) (n : Nat) (off : Int) :
    ∃ w, (∀ w', mntwrite c srv n off w' ↔ w' = w) ∧
      (Reports srv n off w ↔ Heeded c srv n off) := by
  cases hc : c.cacheable with
  | false =>
    obtain ⟨w, hw, hr⟩ : ∃ w, Ends (writeround c srv n off) { tot := 0, sent := [] } w ∧
      (Reports srv n off w ↔ Heeded c srv n off) := uncached hc
    refine ⟨w, fun w' => ?_, hr⟩
    unfold mntwrite
    rw [hc, if_neg Bool.false_ne_true]
    exact ⟨fun h => h.unique hw, fun h => h ▸ hw⟩
  | true =>
    refine ⟨{ sent := chunks c n off, ret := replied srv (chunks c n off) }, fun w' => ?_, ?_⟩
    · unfold mntwrite
      rw [hc, if_pos rfl]
      constructor
      · rintro ⟨hs, hr⟩
        have hs := hs.unique cwrite_chunks
        rw [hs] at hr
        obtain ⟨sent, ret⟩ := w'
        cases hs
        cases hr
        rfl
      · rintro rfl
        exact ⟨cwrite_chunks, rfl⟩
    · unfold Heeded
      rw [hc, if_pos rfl]
      exact reports_replied chunks_inorder

/-- Three bytes a request, and no cache. -/
private def narrow : Iochan where
  iounit := 3
  cacheable := false
  pos := by decide

/-- A write of five bytes to a server that accepts everything sends three and returns 0. -/
theorem mntwrite_cut : ¬∀ (c : Iochan) (srv : Server) (n : Nat) (off : Int) (w : Written),
    mntwrite c srv n off w → Reports srv n off w := by
  intro h
  have hr := h narrow (fun r => some r.count) 5 0
    { sent := [{ data := 0, offset := 0, count := 3 }], ret := some 0 } ⟨1, by decide⟩
  have := (hr.full (by decide)).1
  cases this

end NixMark.Devmnt
