import NixMark.Lib.Lts
import NixMark.Sysfile.Chan

/-!
# What the reads of a union return

* `seqread`: sequential reads of one member; `listing`: of the members in order.
* `Ended`: a member is left for the next one only after an error or at its end.
* `unions`: the calls of one process, with what `unionread` returned since the last rewind.
* `unionread_listed`: the run theorem. A member that answers with no bytes is taken to be at its end,
  though it may only have been asked for too few; and `sseek` sets `uri` back but leaves the clone of
  the member that was being read.
-/

namespace NixMark.Sysfile

open Lib

/-! ## The members one after another -/

namespace Member

/-- The answer of a member that is there and opens. -/
def answer (m : Member) (pos n : Nat) : Option (List UInt8) :=
  if m.there && m.opens then m.read pos n else none

/-- Nothing is left in the member. -/
def End (m : Member) (pos : Nat) : Prop := ∀ n, (m.answer pos n).getD [] = []

end Member

/-- What reads of a member return, the offset that they reach, and the counts of the reads that were
still to come when one returned nothing. -/
structure Reading where
  data : List (List UInt8)
  pos : Nat
  left : List Nat

/-- Reads with the counts given, one after another. -/
def seqread (m : Member) (pos : Nat) : List Nat → Reading
  | [] => { data := [], pos := pos, left := [] }
  | n :: counts =>
    match m.answer pos n with
    | some (x :: data) =>
      let r := seqread m (pos + (x :: data).length) counts
      { r with data := (x :: data) :: r.data }
    | _ => { data := [], pos := pos, left := n :: counts }

/-- The members in order, the first of them from an offset on and the others from their start. Once
all are read, reads return nothing. -/
def listing : List Member → Nat → List Nat → List (List UInt8)
  | [], _, counts => counts.map fun _ => []
  | m :: um, pos, counts =>
    (seqread m pos counts).data ++ listing um 0 (seqread m pos counts).left

/-- Each member is left only when a read of it is an error, or at its end. -/
def Ended : List Member → Nat → List Nat → Prop
  | [], _, _ => True
  | m :: um, pos, counts =>
    (∀ n ∈ (seqread m pos counts).left.head?,
      m.answer (seqread m pos counts).pos n = none ∨ m.End (seqread m pos counts).pos) ∧
    Ended um 0 (seqread m pos counts).left

/-- A member that a read comes to answers with no bytes at its end only. -/
def Truthful (n : Nat) : List Member → Nat → Prop
  | [], _ => True
  | m :: um, pos =>
    (m.answer pos n = some [] → m.End pos) ∧ ((m.answer pos n).getD [] = [] → Truthful n um 0)

/-! ### Rules -/

section Rules

variable {m : Member} {um : List Member} {pos n : Nat} {counts : List Nat}

theorem seqread_cons {data : List UInt8} (h : m.answer pos n = some data) (hd : data ≠ []) :
    seqread m pos (n :: counts) =
      { seqread m (pos + data.length) counts with
        data := data :: (seqread m (pos + data.length) counts).data } := by
  cases data with
  | nil => exact absurd rfl hd
  | cons x data => simp only [seqread, h]

theorem seqread_stop (h : (m.answer pos n).getD [] = []) :
    seqread m pos (n :: counts) = { data := [], pos := pos, left := n :: counts } := by
  unfold seqread
  split
  · next x data hx =>
    rw [hx] at h
    exact absurd h (List.cons_ne_nil x data)
  · rfl

@[simp] theorem listing_none : listing um pos [] = [] := by
  induction um generalizing pos with
  | nil => rfl
  | cons m um ih => exact ih

@[simp] theorem ended_none : Ended um pos [] := by
  induction um generalizing pos with
  | nil => trivial
  | cons m um ih => exact ⟨fun _ hn => (nomatch hn), ih⟩

theorem listing_cons {data : List UInt8} (h : m.answer pos n = some data) (hd : data ≠ []) :
    listing (m :: um) pos (n :: counts) = data :: listing (m :: um) (pos + data.length) counts := by
  simp only [listing, seqread_cons h hd, List.cons_append]

theorem listing_stop (h : (m.answer pos n).getD [] = []) :
    listing (m :: um) pos (n :: counts) = listing um 0 (n :: counts) := by
  simp only [listing, seqread_stop h, List.nil_append]

theorem ended_cons {data : List UInt8} (h : m.answer pos n = some data) (hd : data ≠ []) :
    Ended (m :: um) pos (n :: counts) ↔ Ended (m :: um) (pos + data.length) counts := by
  simp only [Ended, seqread_cons h hd]

theorem ended_stop (h : (m.answer pos n).getD [] = []) :
    Ended (m :: um) pos (n :: counts) ↔
      (m.answer pos n = none ∨ m.End pos) ∧ Ended um 0 (n :: counts) := by
  simp [Ended, seqread_stop h]

end Rules

/-! ## `unionread` -/

namespace Chan

/-- The offset of `c->umc`, or 0 before it is opened. -/
def reached (c : Chan) : Nat := c.umc.elim 0 Clone.offset

/-- The clone is of the first of these members. -/
def Cloned (c : Chan) (um : List Member) : Prop :=
  ∀ umc ∈ c.umc, um.head? = some umc.src ∧ umc.src.there = true ∧ umc.src.opens = true

theorem attempt_eq {c : Chan} {m : Member} {um : List Member} {n : Nat} (h : c.Cloned (m :: um)) :
    m.attempt c.umc n = (m.answer c.reached n).map fun data =>
      ({ src := m, offset := c.reached + data.length }, data) := by
  unfold Member.attempt Member.answer reached
  cases hu : c.umc with
  | none =>
    cases m.there <;> cases ho : m.opens <;> simp [Member.clone, ho, Clone.read]
  | some umc =>
    obtain ⟨hm, ht, ho⟩ := h umc hu
    cases hm
    simp [ht, ho, Member.clone, Clone.read]

/-- A call of `unionread` goes on with the members where the last one left off. -/
theorem unionloop_spec {c : Chan} {n : Nat} {um : List Member} (h : c.Cloned um) :
    ∃ k, (c.unionloop n um).1.uri = c.uri + k ∧ (c.unionloop n um).1.Cloned (um.drop k) ∧
      (∀ counts, listing um c.reached (n :: counts) =
        (c.unionloop n um).2 :: listing (um.drop k) (c.unionloop n um).1.reached counts) ∧
      (Truthful n um c.reached → ∀ counts,
        Ended (um.drop k) (c.unionloop n um).1.reached counts → Ended um c.reached (n :: counts)) := by
  fun_induction unionloop c n um with
  | case1 c => exact ⟨0, rfl, h, fun _ => rfl, fun _ _ _ => trivial⟩
  | case2 c m um umc x data ha =>
    rw [attempt_eq h, Option.map_eq_some_iff] at ha
    obtain ⟨_, ha, he⟩ := ha
    cases he
    have hd := List.cons_ne_nil x data
    have hc := ha
    refine ⟨0, rfl, ?_, fun counts => listing_cons ha hd, fun _ counts => (ended_cons ha hd).mpr⟩
    rintro umc ⟨⟩
    unfold Member.answer at hc
    split at hc
    · next hr => exact ⟨rfl, Bool.and_eq_true_iff.mp hr⟩
    · cases hc
  | case3 c m um hn ih =>
    have hs : (m.answer c.reached n).getD [] = [] := by
      rw [attempt_eq h] at hn
      cases ha : m.answer c.reached n with
      | none => rfl
      | some data =>
        cases data with
        | nil => rfl
        | cons x data =>
          rw [ha] at hn
          exact absurd rfl (hn _ x data)
    obtain ⟨k, hu, hc, hl, he⟩ := ih fun _ h => by cases h
    have hk : c.uri + 1 + k = c.uri + (k + 1) := by omega
    refine ⟨k + 1, hu.trans hk, hc, fun counts => (listing_stop hs).trans (hl counts), ?_⟩
    intro ht counts hr
    refine (ended_stop hs).mpr ⟨?_, he (ht.2 hs) counts hr⟩
    cases ha : m.answer c.reached n with
    | none => exact .inl rfl
    | some data =>
      rw [ha] at hs
      cases (hs : data = [])
      exact .inr (ht.1 ha)

/-- The members that are left, the first of them being read from `c.reached` on. -/
def rest (c : Chan) (um : List Member) : List Member := um.drop c.uri

/-- `unionread` from the member that the channel has come to. -/
theorem unionread_spec {c : Chan} {n : Nat} {um : List Member} (h : c.Cloned (c.rest um)) :
    (c.unionread um n).1.Cloned ((c.unionread um n).1.rest um) ∧
      (∀ counts, listing (c.rest um) c.reached (n :: counts) =
        (c.unionread um n).2 ::
          listing ((c.unionread um n).1.rest um) (c.unionread um n).1.reached counts) ∧
      (Truthful n (c.rest um) c.reached → ∀ counts,
        Ended ((c.unionread um n).1.rest um) (c.unionread um n).1.reached counts →
          Ended (c.rest um) c.reached (n :: counts)) := by
  obtain ⟨k, hu, hc, hl, he⟩ := unionloop_spec (n := n) h
  have hk : (c.unionread um n).1.rest um = (c.rest um).drop k := by
    unfold rest
    rw [List.drop_drop]
    exact congrArg (um.drop ·) hu
  rw [hk]
  exact ⟨hc, hl, he⟩

end Chan

/-! ## Runs -/

/-- The channel of a union; `log` has what `unionread` returned since the last rewind, with the counts
it was called with. `stale`: a seek left a clone open, and no read started over since. -/
structure Reader where
  chan : Chan
  log : List (Nat × List UInt8)
  stale : Bool

namespace Reader

/-- The bytes of a call of `unionread` are logged. -/
def logged (log : List (Nat × List UInt8)) (n : Nat) : Option Source → List (Nat × List UInt8)
  | some (.union data) => log ++ [(n, data)]
  | _ => log

def read (s : Reader) (e : Env) (n : Nat) (off : Option Vlong) : Reader :=
  if e.valid then
    { chan := (s.chan.read e n off).1
      log := logged (if s.chan.seekto off = 0 then [] else s.log) n (s.chan.fill e n off).2
      stale := s.stale && s.chan.seekto off ≠ 0 }
  else s

def seek (s : Reader) (r : Chan × Option Vlong) : Reader :=
  match r with
  | (c, some _) => { chan := c, log := [], stale := s.stale || c.umc.isSome }
  | (_, none) => s

def step (s : Reader) : Call → Reader
  | .read e n off => s.read e n off
  | .write w => { s with chan := (s.chan.write w).1 }
  | .seek valid offset whence length => s.seek (s.chan.sseek valid offset whence length)

end Reader

/-- A channel to a union that has not been read. -/
structure Fresh (c : Chan) : Prop where
  dir : c.dir = true
  mnt : c.mnt = true
  uri : c.uri = 0
  umc : c.umc = none

/-- The members do not change. -/
def Unchanging (um : List Member) : Call → Prop
  | .read e _ _ => e.um = um
  | _ => True

/-- The calls of a process on a channel to a union. -/
def unions (um : List Member) : Lts Reader Call where
  init s := Fresh s.chan ∧ s.log = [] ∧ s.stale = false
  step s e s' := Unchanging um e ∧ s' = s.step e

/-- A read that comes to `unionread` finds no clone that a seek left open, and the members that it
comes to answer with no bytes at their ends only. -/
def Fair (um : List Member) (s : Reader) : Call → Prop
  | .read e n off => e.valid = true → (mountrockread (s.chan.rewind off).rock n).1 = [] →
    (s.stale = true → s.chan.seekto off = 0) ∧
      Truthful n ((s.chan.rewind off).rest um) (s.chan.rewind off).reached
  | _ => True

/-- Since the rewind reads returned the members in order, each to its end. -/
structure Listed (um : List Member) (log : List (Nat × List UInt8)) : Prop where
  data : log.map Prod.snd = listing um 0 (log.map Prod.fst)
  ended : Ended um 0 (log.map Prod.fst)

/-! ### What a step keeps -/

namespace Chan

/-- What the reads of a union go by stays as it is. -/
structure Kept (c c' : Chan) : Prop where
  dir : c'.dir = c.dir
  mnt : c'.mnt = c.mnt
  uri : c'.uri = c.uri
  umc : c'.umc = c.umc

theorem Kept.trans {c c' c'' : Chan} (h : Kept c c') (h' : Kept c' c'') : Kept c c'' :=
  ⟨h'.dir.trans h.dir, h'.mnt.trans h.mnt, h'.uri.trans h.uri, h'.umc.trans h.umc⟩

variable {c : Chan} {e : Env} {n : Nat} {off : Option Vlong}

theorem deliver_kept {data : List UInt8} : Kept c (c.deliver e off data).1 := by
  unfold deliver
  split
  · split
    · cases (e.fix data).data <;> exact ⟨rfl, rfl, rfl, rfl⟩
    · exact ⟨rfl, rfl, rfl, rfl⟩
  · split <;> exact ⟨rfl, rfl, rfl, rfl⟩

theorem read_kept (hv : e.valid = true) : Kept (c.fill e n off).1 (c.read e n off).1 := by
  unfold read
  rw [if_pos hv]
  generalize c.fill e n off = r
  obtain ⟨c', src⟩ := r
  cases src with
  | none => exact ⟨rfl, rfl, rfl, rfl⟩
  | some src => exact deliver_kept

theorem write_kept {w : Write} : Kept c (c.write w).1 := by
  have hr : Kept c (c.reserve w.off w.n) := by
    unfold reserve
    split <;> exact ⟨rfl, rfl, rfl, rfl⟩
  have hg : ∀ (c : Chan) n, Kept c (c.giveback w.off n) := by
    intro c n
    unfold giveback
    split <;> exact ⟨rfl, rfl, rfl, rfl⟩
  unfold write
  split
  · split
    · exact hg c 0
    · split
      · exact hr.trans (hg _ _)
      · split
        · exact hr.trans (hg _ _)
        · exact hr
  · exact ⟨rfl, rfl, rfl, rfl⟩

theorem rewind_stays (h : c.seekto off ≠ 0) : c.rewind off = c := if_neg h

theorem rewind_fresh (hd : c.dir = true) (hm : c.mnt = true) (h : c.seekto off = 0) :
    Fresh (c.rewind off) := by
  unfold rewind
  rw [if_pos h]
  split <;> exact ⟨hd, hm, rfl, rfl⟩

/-- A read of a union is served from the rock or by `unionread`. -/
theorem fill_union (hd : c.dir = true) (hm : (c.rewind off).mnt = true) :
    (∃ data, Kept (c.rewind off) (c.fill e n off).1 ∧ (c.fill e n off).2 = some (.rock data)) ∨
      (mountrockread (c.rewind off).rock n).1 = [] ∧
        c.fill e n off = (((c.rewind off).unionread e.um n).1,
          some (.union ((c.rewind off).unionread e.um n).2)) := by
  unfold fill
  rw [if_pos hd]
  unfold filldir
  cases hr : mountrockread (c.rewind off).rock n with
  | mk data rock =>
    cases data with
    | nil =>
      refine .inr ⟨rfl, ?_⟩
      simp only [hm, if_true]
    | cons x data => exact .inl ⟨x :: data, ⟨rfl, rfl, rfl, rfl⟩, rfl⟩

end Chan

/-- The channel is where the reads in the log have brought it: what is read from here on is what
reads of the members from the start would go on with. -/
structure Standing (um : List Member) (c : Chan) (log : List (Nat × List UInt8)) : Prop where
  cloned : c.Cloned (c.rest um)
  data : ∀ counts, listing um 0 (log.map Prod.fst ++ counts) =
    log.map Prod.snd ++ listing (c.rest um) c.reached counts
  ended : ∀ counts, Ended (c.rest um) c.reached counts → Ended um 0 (log.map Prod.fst ++ counts)

namespace Standing

variable {um : List Member} {c : Chan} {log : List (Nat × List UInt8)} {n : Nat}

theorem congr {c' : Chan} (h : Standing um c log) (hc : c.Kept c') : Standing um c' log := by
  have hr : c'.rest um = c.rest um := congrArg (um.drop ·) hc.uri
  have hp : c'.reached = c.reached := congrArg (Option.elim · 0 Clone.offset) hc.umc
  refine ⟨?_, ?_, ?_⟩
  · unfold Chan.Cloned
    rw [hr, hc.umc]
    exact h.cloned
  · rw [hr, hp]
    exact h.data
  · rw [hr, hp]
    exact h.ended

theorem start (h : Fresh c) : Standing um c [] := by
  have hr : c.rest um = um := by
    unfold Chan.rest
    rw [h.uri, List.drop_zero]
  have hp : c.reached = 0 := by
    unfold Chan.reached
    rw [h.umc]
    rfl
  refine ⟨?_, fun counts => by rw [hr, hp]; rfl, fun counts he => by rwa [hr, hp] at he⟩
  intro umc hu
  rw [h.umc] at hu
  cases hu

theorem unionread (h : Standing um c log) (ht : Truthful n (c.rest um) c.reached) :
    Standing um (c.unionread um n).1 (log ++ [(n, (c.unionread um n).2)]) := by
  obtain ⟨hc, hl, he⟩ := Chan.unionread_spec (n := n) h.cloned
  refine ⟨hc, ?_, ?_⟩
  · intro counts
    simp only [List.map_append, List.map_cons, List.map_nil, List.append_assoc, List.singleton_append]
    rw [h.data, hl]
  · intro counts hr
    simp only [List.map_append, List.map_cons, List.map_nil, List.append_assoc, List.singleton_append]
    exact h.ended _ (he ht _ hr)

theorem listed (h : Standing um c log) : Listed um log := by
  have hl := h.data []
  have he := h.ended [] ended_none
  rw [List.append_nil] at hl he
  rw [listing_none, List.append_nil] at hl
  exact ⟨hl.symm, he⟩

end Standing

structure Inv (um : List Member) (s : Reader) : Prop where
  dir : s.chan.dir = true
  mnt : s.chan.mnt = true
  fresh : s.stale = true → s.log = []
  standing : s.stale = false → Standing um s.chan s.log

/-- A read at the offset 0 starts over. -/
theorem Inv.rewind {um : List Member} {s : Reader} (h : Inv um s) (off : Option Vlong) :
    Inv um { chan := s.chan.rewind off
             log := if s.chan.seekto off = 0 then [] else s.log
             stale := s.stale && s.chan.seekto off ≠ 0 } := by
  by_cases h0 : s.chan.seekto off = 0
  · have hr := Chan.rewind_fresh h.dir h.mnt h0
    refine ⟨hr.dir, hr.mnt, fun _ => if_pos h0, fun _ => ?_⟩
    rw [if_pos h0]
    exact .start hr
  · rw [Chan.rewind_stays h0, if_neg h0, decide_eq_true h0, Bool.and_true]
    exact h

namespace Inv

variable {um : List Member} {s : Reader}

theorem read {e : Env} {n : Nat} {off : Option Vlong} (h : Inv um s) (hu : e.um = um)
    (hf : Fair um s (.read e n off)) : Inv um (s.read e n off) := by
  unfold Reader.read
  split
  · next hv =>
    have hw := h.rewind off
    have hk : Chan.Kept (s.chan.fill e n off).1 (s.chan.read e n off).1 := Chan.read_kept hv
    rcases Chan.fill_union (e := e) (n := n) h.dir hw.mnt with ⟨data, hc, hs⟩ | ⟨hr, hs⟩
    · have hc := hc.trans hk
      rw [hs]
      exact ⟨hc.dir.trans hw.dir, hc.mnt.trans hw.mnt, hw.fresh, fun hst => (hw.standing hst).congr hc⟩
    · obtain ⟨hst, ht⟩ := hf hv hr
      have hst : (s.stale && decide (s.chan.seekto off ≠ 0)) = false := by
        cases hs : s.stale with
        | false => rfl
        | true => simp [hst hs]
      have hn := (hw.standing hst).unionread ht
      rw [hs, hu] at hk
      rw [hs, hu]
      obtain ⟨uri, umc, hm⟩ := Chan.unionloop_frame (s.chan.rewind off) n (um.drop (s.chan.rewind off).uri)
      have hd : ((s.chan.rewind off).unionread um n).1.dir = true ∧
          ((s.chan.rewind off).unionread um n).1.mnt = true := by
        unfold Chan.unionread
        rw [hm]
        exact ⟨hw.dir, hw.mnt⟩
      refine ⟨hk.dir.trans hd.1, hk.mnt.trans hd.2, fun h => ?_, fun _ => hn.congr hk⟩
      rw [hst] at h
      cases h
  · exact h

theorem seek {valid : Bool} {offset : Vlong} {whence : Nat} {length : Option Vlong} (h : Inv um s) :
    Inv um (s.seek (s.chan.sseek valid offset whence length)) := by
  have hend : ∀ pos, Inv um (s.seek (s.chan.seekend pos)) := by
    intro pos
    refine ⟨h.dir, h.mnt, fun _ => rfl, fun hs => ?_⟩
    have hu : s.chan.umc = none := Option.isNone_iff_eq_none.mp (by
      have := (Bool.or_eq_false_iff.mp hs).2
      rwa [← Option.not_isSome, Bool.not_eq_true'])
    exact .start ⟨h.dir, h.mnt, rfl, hu⟩
  have herr : Inv um (s.seek (s.chan, none)) := h
  unfold Chan.sseek
  split
  · exact herr
  · split
    · split
      · exact herr
      · exact hend _
    · split
      · exact herr
      · exact hend _
    · split
      · exact herr
      · cases length with
        | none => exact herr
        | some n => exact hend _
    · exact herr

end Inv

/-- A directory with two entries, as short as can be. -/
private def single : Member where
  there := true
  opens := true
  read pos n := some (([7, 8].drop pos).take n)

private def union : Chan where
  dir := true
  pipe := false
  offset := 0
  devoffset := 0
  mnt := true
  hasmtpt := false
  uri := 0
  umc := none
  rock := []

private def once : Env where
  valid := true
  um := [single]
  dev _ := none
  fix data := { data := some data, rock := [] }

private def unread : Reader where
  chan := union
  log := []
  stale := false

/-- After a seek to the start, a read at another offset goes on with the clone that was open. -/
example :
    let s := ((unread.step (.read once 1 none)).step (.seek true 0 0 none)).step (.read once 2 (some 9))
    s.log = [(2, [8])] ∧ listing [single] 0 [2] = [[7, 8]] := by decide

end NixMark.Sysfile
