import NixMark.Lib.Lts
import NixMark.Sysfile.Chan

/-!
# The offset of a channel follows the bytes that it transfers

`Sys` has besides the channel the offset that the calls' outcomes add up to: a call that maintains
the offset moves it by the count that it returns, and any read of a directory does.

* `write_given`, `write_own`, `pwrite_own`: the offset after a write. `pwrite` with the offset `~0`
  moves it by the count that was asked for, whatever becomes of the write.
* `offset_follows`: the run theorem.
-/

namespace NixMark.Sysfile

open Lib

/-! ## Reads -/

@[simp] theorem maintains_none : maintains none = true := rfl

@[simp] theorem maintains_own : maintains (some own) = true :=
  decide_eq_true (rfl : own = own)

theorem maintains_given {pos : Vlong} (h : pos ≠ own) : maintains (some pos) = false :=
  decide_eq_false h

namespace Chan

variable {c : Chan} {e : Env} {n : Nat} {off : Option Vlong}

theorem seekto_own (h : maintains off = true) : c.seekto off = c.offset := by
  cases off with
  | none => rfl
  | some pos =>
    simp only [maintains, decide_eq_true_eq] at h
    simp only [seekto, if_pos h]

/-- A directory that is read from the start by its own offset is there already. -/
theorem rewind_offset : (c.rewind off).offset = c.offset := by
  unfold rewind
  split
  · next h0 =>
    split
    · next hm =>
      rw [seekto_own hm] at h0
      exact h0.symm
    · rfl
  · rfl

theorem rewind_dir : (c.rewind off).dir = c.dir := by
  unfold rewind
  split
  · split <;> rfl
  · rfl

theorem filldir_offset {pos : Vlong} :
    (c.filldir e n pos).1.offset = c.offset ∧ (c.filldir e n pos).1.dir = c.dir := by
  unfold filldir
  split
  · exact ⟨rfl, rfl⟩
  · split
    · obtain ⟨uri, umc, h⟩ := unionloop_frame c n (e.um.drop c.uri)
      show (c.unionloop n (e.um.drop c.uri)).1.offset = _ ∧
        (c.unionloop n (e.um.drop c.uri)).1.dir = _
      rw [h]
      exact ⟨rfl, rfl⟩
    · split <;> exact ⟨rfl, rfl⟩

theorem fill_offset : (c.fill e n off).1.offset = c.offset ∧ (c.fill e n off).1.dir = c.dir := by
  unfold fill
  split
  · have h : ((c.rewind off).filldir e n (c.seekto off)).1.offset = (c.rewind off).offset ∧
        ((c.rewind off).filldir e n (c.seekto off)).1.dir = (c.rewind off).dir := filldir_offset
    rw [rewind_offset, rewind_dir] at h
    exact h
  · exact ⟨rfl, rfl⟩

/-- How far a call moves the offset: by the count that it returns, if it maintains it. -/
def moved (c : Chan) (off : Option Vlong) (r : Option Nat) : Vlong :=
  if c.dir || maintains off then (r.getD 0 : Nat) else 0

theorem deliver_offset {data : List UInt8} :
    (c.deliver e off data).1.offset = c.offset + c.moved off (c.deliver e off data).2 := by
  unfold deliver moved
  cases hd : c.dir with
  | true =>
    rw [if_pos rfl, Bool.true_or, if_pos rfl]
    split
    · cases (e.fix data).data with
      | none => exact (BitVec.add_zero _).symm
      | some fixed => rfl
    · rfl
  | false =>
    rw [if_neg Bool.false_ne_true, Bool.false_or]
    split
    · rfl
    · exact (BitVec.add_zero _).symm

theorem add_moved_none : c.offset + c.moved off none = c.offset := by
  unfold moved
  split <;> exact BitVec.add_zero _

/-- A read, `pread` included, leaves the offset where it should. -/
theorem read_offset : (c.read e n off).1.offset = c.offset + c.moved off (c.read e n off).2 := by
  unfold read
  split
  · obtain ⟨hoff, hdir⟩ : (c.fill e n off).1.offset = c.offset ∧
        (c.fill e n off).1.dir = c.dir := fill_offset
    generalize c.fill e n off = r at hoff hdir
    obtain ⟨c', src⟩ := r
    cases src with
    | none => exact hoff.trans add_moved_none.symm
    | some src =>
      have h : (c'.deliver e off src.data).1.offset =
        c'.offset + c'.moved off (c'.deliver e off src.data).2 := deliver_offset
      have hm : ∀ r, c'.moved off r = c.moved off r := by
        intro r
        unfold moved
        rw [hdir]
      rw [hm, hoff] at h
      exact h
  · exact add_moved_none.symm

end Chan

/-! ## Writes -/

namespace Chan

variable {c : Chan} {w : Write}

/-- With an offset of its own a write leaves the channel's alone. -/
theorem write_given {pos : Vlong} (ho : w.off = some pos) (hp : pos ≠ own) : (c.write w).1 = c := by
  have hg : ∀ n, c.giveback w.off n = c := fun n => if_neg (by rw [ho]; exact Option.some_ne_none _)
  have hr : c.reserve w.off w.n = c := by
    unfold reserve
    rw [ho, maintains_given hp, if_neg Bool.false_ne_true]
  unfold write
  simp only [hr, hg, ite_self]
  split
  · split
    · rfl
    · split <;> rfl
  · rfl

/-- A write to a directory is an error. -/
theorem write_dir (hd : c.dir = true) : (c.write w).1.offset = c.offset ∧ (c.write w).2 = none := by
  unfold write
  rw [if_pos hd]
  split
  · refine ⟨?_, rfl⟩
    unfold giveback
    split
    · exact BitVec.sub_zero _
    · rfl
  · exact ⟨rfl, rfl⟩

/-- `write` gives back what the device did not accept. -/
theorem write_own (ho : w.off = none) :
    (c.write w).1.offset = c.offset + ((c.write w).2.getD 0 : Nat) := by
  have hg : ∀ (c : Chan) n, (c.giveback w.off n).offset = c.offset - n := by
    intro c n
    unfold giveback
    rw [if_pos ho]
  have hr : (c.reserve w.off w.n).offset = c.offset + w.n := by
    unfold reserve
    rw [ho, maintains_none, if_pos rfl]
  cases hd : c.dir with
  | true =>
    obtain ⟨h, hn⟩ := write_dir (w := w) hd
    rw [h, hn]
    exact (BitVec.add_zero _).symm
  | false =>
    unfold write
    rw [hd, if_neg Bool.false_ne_true]
    split
    · split
      · rw [hg, hr, BitVec.add_sub_cancel]
        exact (BitVec.add_zero _).symm
      · next r hdev =>
        have hle := w.accepts _ _ hdev
        show (if r < w.n then _ else _ : Chan).offset = c.offset + (r : Vlong)
        split
        · rw [hg, hr, Nat.cast_sub hle, add_comm c.offset, add_sub_sub_cancel, add_comm]
        · have : r = w.n := by omega
          rw [hr, this]
    · exact (BitVec.add_zero _).symm

/-- `pwrite` with the offset `~0` gives nothing back. -/
theorem pwrite_own (ho : w.off = some own) (hv : w.valid = true) (hd : c.dir = false) :
    (c.write w).1.offset = c.offset + w.n := by
  have hg : ∀ (c : Chan) n, c.giveback w.off n = c := fun c n =>
    if_neg (by rw [ho]; exact Option.some_ne_none _)
  have hr : (c.reserve w.off w.n).offset = c.offset + w.n := by
    unfold reserve
    rw [ho, maintains_own, if_pos rfl]
  unfold write
  simp only [hg, ite_self, if_pos hv, hd, if_neg Bool.false_ne_true]
  split <;> exact hr

end Chan

/-! ## Runs -/

/-- The channel, and the offset that the outcomes of its calls add up to. -/
structure Sys where
  chan : Chan
  pos : Vlong

namespace Sys

def step (s : Sys) : Call → Sys
  | .read e n off =>
    { chan := (s.chan.read e n off).1
      pos := s.pos + s.chan.moved off (s.chan.read e n off).2 }
  | .write w =>
    { chan := (s.chan.write w).1
      pos := s.pos + s.chan.moved w.off (s.chan.write w).2 }
  | .seek valid offset whence length =>
    { chan := (s.chan.sseek valid offset whence length).1
      pos := (s.chan.sseek valid offset whence length).2.getD s.pos }

end Sys

/-- The calls of a process, from any channel. -/
def calls : Lts Sys Call where
  init s := s.pos = s.chan.offset
  step s e s' := s' = s.step e

/-- A `pwrite` of a file with the offset `~0` writes all of it. -/
def Complete (s : Sys) : Call → Prop
  | .write w => w.valid = true → s.chan.dir = false → w.off = some own →
    w.dev s.chan.offset = some w.n
  | _ => True

namespace Chan

variable {c : Chan}

theorem sseek_offset {valid : Bool} {offset : Vlong} {whence : Nat} {length : Option Vlong} :
    (c.sseek valid offset whence length).1.offset =
      (c.sseek valid offset whence length).2.getD c.offset := by
  unfold sseek
  split
  · rfl
  · split
    · split <;> rfl
    · split <;> rfl
    · split
      · rfl
      · cases length <;> rfl
    · rfl

/-- A write leaves the offset where it should, unless it is a `pwrite` with the offset `~0` that fails
in part. -/
theorem write_offset {w : Write} {pos : Vlong} (hc : Complete { chan := c, pos := pos } (.write w)) :
    (c.write w).1.offset = c.offset + c.moved w.off (c.write w).2 := by
  cases hd : c.dir with
  | true =>
    obtain ⟨h, hn⟩ := write_dir (w := w) hd
    rw [h, hn, add_moved_none]
  | false =>
    unfold moved
    rw [hd, Bool.false_or]
    cases ho : w.off with
    | none => exact write_own ho
    | some off =>
      by_cases hoff : off = own
      · subst hoff
        rw [maintains_own, if_pos rfl]
        cases hv : w.valid with
        | false =>
          have : c.write w = (c, none) := by
            unfold write
            rw [hv, if_neg Bool.false_ne_true]
          rw [this]
          exact (BitVec.add_zero _).symm
        | true =>
          have hn : (c.write w).2 = some w.n := by
            have hdev : w.dev (c.seekto w.off) = some w.n := by
              rw [ho, seekto_own maintains_own]
              exact hc hv hd ho
            unfold write
            rw [if_pos hv, hd, if_neg Bool.false_ne_true, hdev]
          rw [pwrite_own ho hv hd, hn]
          rfl
      · rw [write_given ho hoff, maintains_given hoff, if_neg Bool.false_ne_true]
        exact (BitVec.add_zero _).symm

end Chan

/-- While no `pwrite` with the offset `~0` fails in part, the offset of the channel is where the bytes
that its calls transferred have brought it. -/
theorem offset_follows {s : Sys} (h : (calls.restrict Complete).Reach s) :
    s.chan.offset = s.pos := by
  refine Lts.Inductive.reach (S := calls.restrict Complete) (I := fun s => s.chan.offset = s.pos)
    ⟨fun s h => h.symm, ?_⟩ h
  rintro s e s' hs ⟨rfl, hc⟩
  cases e with
  | read e n off => exact Chan.read_offset.trans (congrArg (· + _) hs)
  | write w => exact (Chan.write_offset hc).trans (congrArg (· + _) hs)
  | seek valid offset whence length =>
    exact Chan.sseek_offset.trans (congrArg (Option.getD _) hs)

/-! ### A file -/

/-- A file just opened. -/
private def opened : Chan where
  dir := false
  pipe := false
  offset := 0
  devoffset := 0
  mnt := false
  hasmtpt := false
  uri := 0
  umc := none
  rock := []

/-- Five bytes are to be written and three are accepted. -/
private def partly (off : Option Vlong) : Write where
  valid := true
  n := 5
  off := off
  dev _ := some 3
  accepts _ _ h := by cases h; decide

/-- `write` -/
theorem offset_follows_write :
    (Sys.step { chan := opened, pos := 0 } (.write (partly none))).chan.offset = 3 :=
  have h0 : (calls.restrict Complete).Reach { chan := opened, pos := 0 } := ⟨[], .init rfl⟩
  offset_follows (h0.step (e := .write (partly none)) ⟨rfl, fun _ _ h => nomatch h⟩)

/-- The same with `pwrite` leaves the offset at 5. -/
theorem pwrite_partly : ¬∀ s, calls.Reach s → s.chan.offset = s.pos := by
  intro h
  have h0 : calls.Reach { chan := opened, pos := 0 } := ⟨[], .init rfl⟩
  have h5 := h _ (h0.step (e := .write (partly (some own))) rfl)
  exact absurd h5 (by decide)

end NixMark.Sysfile
