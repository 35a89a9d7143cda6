import Mathlib.Data.Nat.Basic
import NixMark.Alog.Netlog
import NixMark.Lib.Wound

/-!
# What the network log returns

* `Sys.Faithful`: `netlog` stores into the buffer in use only, and reads return what was logged since
  the most recent first open, in order, and all of it as long as nothing was overtaken.
* `Orderly`: the steps that keep it so.
* `Inv`: the buffer holds the bytes that are unread, and those that a reader is copying.
* `log_faithful`: the run theorem.
-/

namespace NixMark.Alog

open Lib
open Function (update update_of_ne update_self)

variable {P : Type}

/-! ## Statements -/

namespace Sys

structure Faithful (s : Sys P) : Prop where
  stored : s.stray = false
  logged : s.returned.Sublist s.logged
  exact : s.lost = 0 → (s.returned ++ s.reader.got) <+: s.logged
  whole : s.lost = 0 →
    s.logged.length = s.returned.length + s.reader.got.length + s.reader.left + s.alog.len

end Sys

/-- The log is empty when it is opened first; a reader has it open, as has a process that stores;
and no byte is stored over one that a reader has still to copy. -/
def Orderly (s : Sys P) : Act P → Prop
  | .netlogopen _ => s.alog.opens = 0 → s.alog.len = 0
  | .netlogclose => s.alog.opens = 1 → s.reader = .idle
  | .take _ => s.alog.opens ≠ 0
  | .store up => s.alog.opens ≠ 0 ∧ ∀ buf ∈ s.pending up,
      s.reader.left = 0 ∨ s.alog.len + buf.length + s.reader.left ≤ Nlog
  | .test _ _ | .move | .write _ _ => True

/-! ## The invariant -/

/-- The number of the next byte that a reader copies. -/
def Sys.mark (s : Sys P) : Nat := s.logged.length - (s.alog.len + s.reader.left)

/-- The reader's pointer is to the byte with the number `k`. -/
def Reader.At (buf k : Nat) : Reader → Prop
  | .idle => True
  | .first rptr i d _ =>
    (i ≠ 0 → rptr = buf + k % Nlog ∧ k % Nlog + i ≤ Nlog) ∧
      (d ≠ 0 → (k + i) % Nlog = 0 ∧ d ≤ Nlog)
  | .second src d _ => d ≠ 0 → src = buf + k % Nlog ∧ k % Nlog + d ≤ Nlog

/-- What holds while the log is open. -/
structure Live (s : Sys P) : Prop where
  buf : s.alog.buf ≠ 0
  endp : s.alog.endp = s.alog.buf + Nlog
  rptr : s.alog.rptr = s.alog.buf + (s.logged.length - s.alog.len) % Nlog
  full : s.alog.len + s.reader.left ≤ Nlog
  ring : Wound Nlog (fun i => s.mem (s.alog.buf + i)) s.mark s.logged
  copies : s.reader.At s.alog.buf s.mark

structure Inv (s : Sys P) : Prop where
  live : s.alog.opens ≠ 0 → Live s
  shut : s.alog.opens = 0 → s.alog.buf = 0 ∧ s.reader = .idle
  text : ∀ up, ∀ buf ∈ s.pending up, buf.length < 256
  stored : s.stray = false
  kept : s.alog.len + s.reader.left ≤ s.logged.length
  bytes : (s.returned ++ s.reader.got ++ s.logged.drop s.mark).Sublist s.logged
  exact : s.lost = 0 → s.returned ++ s.reader.got ++ s.logged.drop s.mark = s.logged

namespace Inv

variable {s s' : Sys P}

theorem faithful (h : Inv s) : s.Faithful where
  stored := h.stored
  logged := by
    refine List.Sublist.trans ?_ h.bytes
    rw [List.append_assoc]
    exact List.sublist_append_left _ _
  exact hl := ⟨_, h.exact hl⟩
  whole hl := by
    have hlen := congrArg List.length (h.exact hl)
    have hkept := h.kept
    simp only [List.length_append, List.length_drop] at hlen
    unfold Sys.mark at hlen
    omega

theorem init : Inv (Sys.init : Sys P) where
  live h := absurd rfl h
  shut _ := ⟨rfl, rfl⟩
  text up buf h := by cases h
  stored := rfl
  kept := Nat.le_refl 0
  bytes := List.Sublist.refl []
  exact _ := rfl

/-- The log is opened first, with a buffer, and is empty. -/
theorem netlogopen (h : Inv s) {p : Nat} (ho : Orderly s (.netlogopen p)) :
    Inv (s.netlogopen p) := by
  unfold Sys.netlogopen
  dsimp only
  split
  · rename_i hopens
    obtain ⟨hbuf, hidle⟩ := h.shut hopens
    have hlen : s.alog.len = 0 := ho hopens
    rw [if_pos hbuf]
    split
    · exact h
    · rename_i hp
      have hleft : s.reader.left = 0 := by rw [hidle]; rfl
      have hgot : s.reader.got = [] := by rw [hidle]; rfl
      exact {
        live := fun _ => {
          buf := hp
          endp := rfl
          rptr := by
            show p = p + (0 - s.alog.len) % Nlog
            rw [Nat.zero_sub]
            rfl
          full := by
            show s.alog.len + s.reader.left ≤ Nlog
            rw [hlen, hleft]
            exact Nat.zero_le _
          ring := fun j _ hj => by cases hj
          copies := by
            show s.reader.At _ _
            rw [hidle]
            trivial }
        shut := fun h => by cases h
        text := h.text
        stored := h.stored
        kept := by
          show s.alog.len + s.reader.left ≤ 0
          rw [hlen, hleft]
        bytes := by
          show ([] ++ s.reader.got ++ List.drop _ []).Sublist []
          rw [hgot, List.drop_nil]
          exact List.Sublist.refl []
        exact := fun _ => by
          show [] ++ s.reader.got ++ List.drop _ [] = []
          rw [hgot, List.drop_nil]
          rfl }
  · rename_i hopens
    have hl := h.live hopens
    exact ⟨fun _ => ⟨hl.buf, hl.endp, hl.rptr, hl.full, hl.ring, hl.copies⟩,
      fun h => absurd h (Nat.succ_ne_zero _), h.text, h.stored, h.kept, h.bytes, h.exact⟩

theorem netlogclose (h : Inv s) (ho : Orderly s .netlogclose) (hs : s.netlogclose = some s') :
    Inv s' := by
  unfold Sys.netlogclose at hs
  dsimp only at hs
  split at hs
  · cases hs
  rename_i hopens
  have hl := h.live hopens
  split at hs
  · rename_i hone
    cases hs
    exact ⟨fun h => absurd rfl h, fun _ => ⟨rfl, ho hone⟩, h.text, h.stored, h.kept, h.bytes,
      h.exact⟩
  · rename_i hone
    cases hs
    refine ⟨fun _ => ⟨hl.buf, hl.endp, hl.rptr, hl.full, hl.ring, hl.copies⟩, fun h => ?_, h.text,
      h.stored, h.kept, h.bytes, h.exact⟩
    have h : s.alog.opens - 1 = 0 := h
    omega

/-- A reader takes `m` bytes, of which `d` are at the beginning of the buffer. -/
theorem taken (h : Inv s) (hopens : s.alog.opens ≠ 0) (hidle : s.reader = .idle) (i d rptr : Nat)
    (hle : i + d ≤ s.alog.len)
    (hrptr : rptr = s.alog.buf + (s.logged.length - s.alog.len + (i + d)) % Nlog)
    (hfirst : (s.logged.length - s.alog.len) % Nlog + i ≤ Nlog)
    (hsecond : d ≠ 0 → (s.logged.length - s.alog.len + i) % Nlog = 0) :
    Inv { s with
      alog := { s.alog with rptr := rptr, len := s.alog.len - (i + d) }
      reader := .first s.alog.rptr i d [] } := by
  have hl := h.live hopens
  have hfull := hl.full
  have hkept := h.kept
  have hleft : s.reader.left = 0 := by rw [hidle]; rfl
  have hgot : s.reader.got = [] := by rw [hidle]; rfl
  have hmark : Sys.mark { s with
      alog := { s.alog with rptr := rptr, len := s.alog.len - (i + d) }
      reader := .first s.alog.rptr i d [] } = s.mark := by
    show s.logged.length - (s.alog.len - (i + d) + (i + d)) =
      s.logged.length - (s.alog.len + s.reader.left)
    rw [hleft]
    omega
  have hk : s.mark = s.logged.length - s.alog.len := by
    unfold Sys.mark
    rw [hleft, Nat.add_zero]
  exact {
    live := fun _ => {
      buf := hl.buf
      endp := hl.endp
      rptr := by
        show rptr = s.alog.buf + (s.logged.length - (s.alog.len - (i + d))) % Nlog
        rw [hrptr]
        congr 2
        omega
      full := by
        show s.alog.len - (i + d) + (i + d) ≤ Nlog
        omega
      ring := by
        rw [hmark]
        exact hl.ring
      copies := by
        rw [hmark, hk]
        refine ⟨fun _ => ⟨hl.rptr, hfirst⟩, fun hd => ⟨hsecond hd, ?_⟩⟩
        omega }
    shut := fun h => absurd h hopens
    text := h.text
    stored := h.stored
    kept := by
      show s.alog.len - (i + d) + (i + d) ≤ s.logged.length
      omega
    bytes := by
      rw [hmark]
      have hbytes := h.bytes
      rw [hgot] at hbytes
      exact hbytes
    exact := by
      rw [hmark]
      have hexact := h.exact
      rw [hgot] at hexact
      exact hexact }

theorem take (h : Inv s) {n : Nat} (ho : Orderly s (.take n)) (hs : s.take n = some s') :
    Inv s' := by
  unfold Sys.take at hs
  dsimp only at hs
  split at hs
  swap
  · cases hs
  rename_i hidle
  split at hs
  · cases hs
  obtain ⟨-, hend, hrptr, hfull, -, -⟩ := h.live ho
  generalize hm : (if n > s.alog.len then s.alog.len else n) = m at hs
  have hle : m ≤ s.alog.len := by
    rw [← hm]
    split <;> omega
  have hmod : (s.logged.length - s.alog.len) % Nlog < Nlog := Nat.mod_lt _ (by decide)
  split at hs
  · rename_i hge
    rw [hend, hrptr] at hge
    -- the bytes go on at the beginning of the buffer
    have hd : s.alog.rptr + m - s.alog.endp =
        (s.logged.length - s.alog.len) % Nlog + m - Nlog := by
      rw [hrptr, hend]
      omega
    have hsum : m - (s.alog.rptr + m - s.alog.endp) + (s.alog.rptr + m - s.alog.endp) = m := by
      rw [hd]
      omega
    have := h.taken ho hidle (m - (s.alog.rptr + m - s.alog.endp))
      (s.alog.rptr + m - s.alog.endp) (s.alog.buf + (s.alog.rptr + m - s.alog.endp))
    rw [hsum] at this
    cases hs
    refine this hle ?_ ?_ ?_
    · rw [hd]
      unfold Nlog at *
      omega
    · rw [hd]
      omega
    · intro _
      rw [hd]
      unfold Nlog at *
      omega
  · rename_i hlt
    rw [hend, hrptr] at hlt
    have := h.taken ho hidle m 0 (s.alog.rptr + m)
    cases hs
    refine this hle ?_ ?_ fun h => absurd rfl h
    · rw [hrptr]
      unfold Nlog at *
      omega
    · omega

/-- The reader copies the next byte, or goes on with none to copy. -/
theorem copied (h : Inv s) (hopens : s.alog.opens ≠ 0) {r : Reader} {p : List UInt8}
    (hp : r.got = s.reader.got ++ p)
    (hbyte : s.reader.left = r.left + p.length)
    (hmem : p = [] ∨ p = [s.mem (s.alog.buf + s.mark % Nlog)])
    (hat : r.At s.alog.buf (s.mark + p.length)) : Inv { s with reader := r } := by
  have hl := h.live hopens
  have hkept := h.kept
  have hfull := hl.full
  have hmark : Sys.mark { s with reader := r } = s.mark + p.length := by
    show s.logged.length - (s.alog.len + r.left) = s.mark + p.length
    unfold Sys.mark
    omega
  have hdrop : p ++ s.logged.drop (s.mark + p.length) = s.logged.drop s.mark := by
    rcases hmem with rfl | rfl
    · rfl
    · have hlt : s.mark < s.logged.length := by
        unfold Sys.mark
        rw [List.length_singleton] at hbyte
        omega
      have hget := hl.ring s.mark (Nat.le_refl _) hlt
      rw [List.getElem?_eq_getElem hlt] at hget
      rw [List.drop_eq_getElem_cons hlt, Option.some.inj hget]
      rfl
  have hkeep : s.returned ++ r.got ++ s.logged.drop (s.mark + p.length) =
      s.returned ++ s.reader.got ++ s.logged.drop s.mark := by
    rw [hp, ← hdrop]
    simp only [List.append_assoc]
  exact {
    live := fun _ => {
      buf := hl.buf
      endp := hl.endp
      rptr := hl.rptr
      full := by
        show s.alog.len + r.left ≤ Nlog
        omega
      ring := by
        rw [hmark]
        exact hl.ring.weaken (Nat.le_add_right _ _)
      copies := by
        rw [hmark]
        exact hat }
    shut := fun h => absurd h hopens
    text := h.text
    stored := h.stored
    kept := by
      show s.alog.len + r.left ≤ s.logged.length
      omega
    bytes := by
      rw [hmark]
      have hbytes := h.bytes
      rw [← hkeep] at hbytes
      exact hbytes
    exact := by
      rw [hmark]
      have hexact := h.exact
      rw [← hkeep] at hexact
      exact hexact }

/-- Writes outside of the buffer. -/
theorem write (h : Inv s) {p : Nat} {b : UInt8} (hs : s.write p b = some s') : Inv s' := by
  unfold Sys.write at hs
  split at hs
  · cases hs
  rename_i hout
  cases hs
  refine ⟨fun ho => ?_, h.shut, h.text, h.stored, h.kept, h.bytes, h.exact⟩
  have hl := h.live ho
  refine ⟨hl.buf, hl.endp, hl.rptr, hl.full, ?_, hl.copies⟩
  refine hl.ring.congr (by decide) fun i hi => update_of_ne (fun he => hout ?_) _ _
  have he : s.alog.buf + i = p := he
  exact decide_eq_true ⟨hl.buf, by omega, by omega⟩

theorem move (h : Inv s) (hs : s.move = some s') : Inv s' := by
  unfold Sys.move at hs
  have hopens : s.reader ≠ .idle → s.alog.opens ≠ 0 := fun hne h0 => hne (h.shut h0).2
  cases hr : s.reader with
  | idle =>
    rw [hr] at hs
    cases hs
  | first rptr i d p =>
    have hopens := hopens (by rw [hr]; exact fun h => by cases h)
    have hat := (h.live hopens).copies
    rw [hr] at hs hat
    cases i with
    | succ i =>
      cases hs
      obtain ⟨hfirst, hsecond⟩ := hat
      obtain ⟨hrptr, hle⟩ := hfirst (Nat.succ_ne_zero i)
      rw [hrptr]
      refine h.copied (p := [s.mem (s.alog.buf + s.mark % Nlog)]) hopens ?_ ?_ (.inr rfl) ⟨?_, ?_⟩
      · rw [hr]
        rfl
      · rw [hr]
        show i + 1 + d = i + d + 1
        omega
      · intro hi
        rw [List.length_singleton]
        unfold Nlog at *
        omega
      · intro hd
        have := hsecond hd
        rw [List.length_singleton]
        rwa [Nat.add_assoc, Nat.add_comm 1 i]
    | zero =>
      cases hs
      obtain ⟨-, hsecond⟩ := hat
      refine h.copied (p := []) hopens ?_ ?_ (.inl rfl) fun hd => ?_
      · rw [hr]
        exact (List.append_nil p).symm
      · rw [hr]
        show 0 + d = d + 0
        omega
      · obtain ⟨hzero, hle⟩ := hsecond hd
        show s.alog.buf = s.alog.buf + (s.mark + 0) % Nlog ∧ (s.mark + 0) % Nlog + d ≤ Nlog
        omega
  | second src d p =>
    have hopens := hopens (by rw [hr]; exact fun h => by cases h)
    have hat := (h.live hopens).copies
    rw [hr] at hs hat
    cases d with
    | succ d =>
      cases hs
      obtain ⟨hsrc, hle⟩ := hat (Nat.succ_ne_zero d)
      rw [hsrc]
      refine h.copied (p := [s.mem (s.alog.buf + s.mark % Nlog)]) hopens ?_ ?_ (.inr rfl)
        fun hd => ?_
      · rw [hr]
        rfl
      · rw [hr]
        rfl
      · rw [List.length_singleton]
        unfold Nlog at *
        omega
    | zero =>
      cases hs
      have hl := h.live hopens
      have hleft : s.reader.left = 0 := by rw [hr]; rfl
      have hgot : s.reader.got = p := by rw [hr]; rfl
      have hmark : Sys.mark { s with reader := .idle, returned := s.returned ++ p } = s.mark := by
        show s.logged.length - (s.alog.len + 0) = s.logged.length - (s.alog.len + s.reader.left)
        rw [hleft]
      have hfull := hl.full
      have hkept := h.kept
      rw [hleft] at hfull hkept
      have hbytes := h.bytes
      have hexact := h.exact
      rw [hgot] at hbytes hexact
      refine ⟨fun _ => ⟨hl.buf, hl.endp, hl.rptr, hfull, ?_, trivial⟩, fun h => absurd h hopens,
        h.text, h.stored, hkept, ?_, ?_⟩
      · rw [hmark]
        exact hl.ring
      · rw [hmark]
        show (s.returned ++ p ++ [] ++ s.logged.drop s.mark).Sublist s.logged
        rwa [List.append_nil]
      · rw [hmark]
        show s.lost = 0 → s.returned ++ p ++ [] ++ s.logged.drop s.mark = s.logged
        rwa [List.append_nil]

end Inv

/-! ### The bytes that `netlog` stores -/

/-- The bytes go round the buffer: each is stored over the one `Nlog` before it. -/
theorem stores_wound {f : Netlog} (text logged : List UInt8) (mem : Nat → UInt8) (t w : Nat)
    (hbuf : f.buf ≠ 0) (hend : f.endp = f.buf + Nlog) (hge : f.buf ≤ t) (hlt : t < f.endp + Nlog) (ht : (t - f.buf) % Nlog = logged.length % Nlog)
    (hw : logged.length + text.length ≤ w + Nlog)
    (h : Wound Nlog (fun i => mem (f.buf + i)) w logged) :
    Wound Nlog (fun i => fill mem (f.stores t text) (f.buf + i)) w (logged ++ text) ∧
      ∀ a ∈ f.stores t text, f.has a.1 = true := by
  induction text generalizing logged mem t with
  | nil =>
    rw [List.append_nil]
    exact ⟨h, fun a ha => by cases ha⟩
  | cons c text ih =>
    have hmod : logged.length % Nlog < Nlog := Nat.mod_lt _ (by decide)
    have hplace : (if t ≥ f.endp then f.buf + (t - f.endp) else t) =
        f.buf + logged.length % Nlog := by
      rw [hend] at hlt ⊢
      unfold Nlog at *
      split <;> omega
    rw [List.length_cons] at hw
    have hpush : Wound Nlog
        (fun i => update mem (f.buf + logged.length % Nlog) c (f.buf + i)) w
        (logged ++ [c]) := by
      refine h.push (by omega) (update_self ..) fun i hi hne => ?_
      exact update_of_ne (fun he => hne (Nat.add_left_cancel he)) _ _
    have hnext : (f.buf + logged.length % Nlog + 1 - f.buf) % Nlog =
        (logged ++ [c]).length % Nlog := by
      rw [List.length_append, List.length_singleton]
      unfold Nlog at *
      omega
    have hlen : (logged ++ [c]).length + text.length ≤ w + Nlog := by
      rw [List.length_append, List.length_singleton]
      omega
    obtain ⟨hwound, hhas⟩ := ih (logged ++ [c]) _ (f.buf + logged.length % Nlog + 1) (by omega)
      (by rw [hend]; unfold Nlog at *; omega) hnext hlen hpush
    rw [Netlog.stores, hplace]
    refine ⟨?_, fun a ha => ?_⟩
    · rw [List.append_assoc] at hwound
      exact hwound
    · rcases List.mem_cons.mp ha with rfl | ha
      · refine decide_eq_true ⟨hbuf, Nat.le_add_right _ _, ?_⟩
        show f.buf + logged.length % Nlog < f.buf + Nlog
        omega
      · exact hhas a ha

/-- What `netlog` makes place for: the bytes that are unread get fewer from the first one on. -/
theorem overtake_spec {f : Netlog} {n N : Nat} (hend : f.endp = f.buf + Nlog)
    (hrptr : f.rptr = f.buf + (N - f.len) % Nlog) (hlen : f.len ≤ Nlog) (hn : n < 256)
    (hN : f.len ≤ N) :
    (f.overtake n).opens = f.opens ∧ (f.overtake n).buf = f.buf ∧ (f.overtake n).endp = f.endp ∧
      (f.overtake n).len = f.len - (f.len + n - Nlog) ∧
      (f.overtake n).rptr = f.buf + (N - (f.overtake n).len) % Nlog := by
  have hmod : (N - f.len) % Nlog < Nlog := Nat.mod_lt _ (by decide)
  unfold Netlog.overtake
  split
  · refine ⟨rfl, rfl, rfl, rfl, ?_⟩
    dsimp only
    rw [hend, hrptr]
    unfold Nlog at *
    split <;> omega
  · refine ⟨rfl, rfl, rfl, ?_, hrptr⟩
    omega

namespace Inv

variable {s s' : Sys P} [DecidableEq P]

theorem test (h : Inv s) {up : P} {buf : List UInt8} (hs : s.test up buf = some s') : Inv s' := by
  unfold Sys.test at hs
  split at hs
  · cases hs
  rename_i hnew
  split at hs
  · cases hs
    exact h
  · cases hs
    refine ⟨fun ho => ?_, h.shut, fun q b hb => ?_, h.stored, h.kept, h.bytes, h.exact⟩
    · have hl := h.live ho
      exact ⟨hl.buf, hl.endp, hl.rptr, hl.full, hl.ring, hl.copies⟩
    · have hb : update s.pending up (some buf) q = some b := hb
      by_cases hq : q = up
      · rw [hq, update_self] at hb
        cases hb
        exact Nat.lt_of_not_le fun hle => hnew (.inr hle)
      · rw [update_of_ne hq] at hb
        exact h.text q b hb

theorem store (h : Inv s) {up : P} (ho : Orderly s (.store up)) (hs : s.store up = some s') :
    Inv s' := by
  obtain ⟨buf, hbuf, hs⟩ := Option.map_eq_some_iff.mp hs
  obtain ⟨hopens, hroom⟩ := ho
  have hroom := hroom buf hbuf
  have hl := h.live hopens
  have hn := h.text up buf hbuf
  have hfull := hl.full
  have hkept := h.kept
  obtain ⟨hopens', hbuf', hend', hlen', hrptr'⟩ := overtake_spec hl.endp hl.rptr
    (Nat.le_trans (Nat.le_add_right _ _) hfull) hn (Nat.le_trans (Nat.le_add_right _ _) hkept)
  generalize hf : s.alog.overtake buf.length = f at hs hopens' hbuf' hend' hlen' hrptr'
  -- the first byte that is kept
  have hmark : Sys.mark s' = s.mark + (s.alog.len + buf.length - Nlog) ∧
      s'.logged.length = s.logged.length + buf.length := by
    rw [← hs]
    refine ⟨?_, List.length_append⟩
    show (s.logged ++ buf).length - (f.len + buf.length + s.reader.left) =
      s.logged.length - (s.alog.len + s.reader.left) + _
    rw [List.length_append]
    unfold Nlog at *
    omega
  have hmod : (s.logged.length - f.len) % Nlog < Nlog := Nat.mod_lt _ (by decide)
  obtain ⟨hring, hhas⟩ := stores_wound buf s.logged s.mem (f.rptr + f.len)
    (s.mark + (s.alog.len + buf.length - Nlog)) (f := f) (by rw [hbuf']; exact hl.buf)
    (by rw [hend', hbuf']; exact hl.endp)
    (by rw [hrptr', hbuf']; omega)
    (by
      rw [hrptr', hend', hl.endp]
      omega)
    (by
      rw [hrptr', hbuf']
      unfold Nlog at *
      omega)
    (by
      unfold Sys.mark
      unfold Nlog at *
      omega)
    (by
      rw [hbuf']
      exact hl.ring.weaken (Nat.le_add_right _ _))
  have hdrop : (s.logged ++ buf).drop (s.mark + (s.alog.len + buf.length - Nlog)) =
      s.logged.drop (s.mark + (s.alog.len + buf.length - Nlog)) ++ buf := by
    refine List.drop_append_of_le_length ?_
    unfold Sys.mark
    unfold Nlog at *
    omega
  obtain ⟨hmark, hlogged⟩ := hmark
  subst hs
  exact {
    live := fun _ => {
      buf := by
        show f.buf ≠ 0
        rw [hbuf']
        exact hl.buf
      endp := by
        show f.endp = f.buf + Nlog
        rw [hend', hbuf']
        exact hl.endp
      rptr := by
        show f.rptr = f.buf + ((s.logged ++ buf).length - (f.len + buf.length)) % Nlog
        have hsame : s.logged.length + buf.length - (f.len + buf.length) =
            s.logged.length - f.len := by omega
        rw [hrptr', hbuf', List.length_append, hsame]
      full := by
        show f.len + buf.length + s.reader.left ≤ Nlog
        unfold Nlog at *
        omega
      ring := by
        rw [hmark]
        exact hring
      copies := by
        rw [hmark]
        show s.reader.At f.buf _
        rw [hbuf']
        rcases hroom with hleft | hroom
        · -- a reader that has copied its bytes does not use its pointer
          cases hr : s.reader with
          | idle => trivial
          | first rptr i d p =>
            rw [hr] at hleft
            have hleft : i + d = 0 := hleft
            exact ⟨fun hi => absurd (Nat.eq_zero_of_add_eq_zero hleft).1 hi,
              fun hd => absurd (Nat.eq_zero_of_add_eq_zero hleft).2 hd⟩
          | second src d p =>
            rw [hr] at hleft
            exact fun hd => absurd hleft hd
        · have hzero : s.alog.len + buf.length - Nlog = 0 := by omega
          rw [hzero]
          exact hl.copies }
    shut := fun h => by
      have h : f.opens = 0 := h
      exact absurd (hopens'.symm.trans h) hopens
    text := fun q b hb => by
      have hb : update s.pending up none q = some b := hb
      by_cases hq : q = up
      · rw [hq, update_self] at hb
        cases hb
      · rw [update_of_ne hq] at hb
        exact h.text q b hb
    stored := by
      show (s.stray || _) = false
      rw [h.stored, Bool.false_or, List.any_eq_false]
      intro a ha
      rw [hhas a ha]
      exact fun h => by cases h
    kept := by
      show f.len + buf.length + s.reader.left ≤ (s.logged ++ buf).length
      rw [List.length_append]
      omega
    bytes := by
      rw [hmark]
      show (s.returned ++ s.reader.got ++ (s.logged ++ buf).drop _).Sublist (s.logged ++ buf)
      rw [hdrop, ← List.append_assoc]
      refine List.Sublist.append (List.Sublist.trans ?_ h.bytes) (List.Sublist.refl buf)
      exact List.Sublist.append (List.Sublist.refl _)
        (List.drop_sublist_drop_left _ (Nat.le_add_right _ _))
    exact := fun hlost => by
      have hlost : s.lost + (s.alog.len + buf.length - Nlog) = 0 := hlost
      obtain ⟨hlost, hzero⟩ := Nat.eq_zero_of_add_eq_zero hlost
      rw [hmark]
      show s.returned ++ s.reader.got ++ (s.logged ++ buf).drop _ = s.logged ++ buf
      rw [hdrop, hzero, ← List.append_assoc, Nat.add_zero, h.exact hlost] }

/-- What a step keeps. -/
theorem step (h : Inv s) {e : Act P} (ho : Orderly s e) (hs : s.step e = some s') : Inv s' := by
  cases e with
  | netlogopen p =>
    cases hs
    exact h.netlogopen ho
  | netlogclose => exact h.netlogclose ho hs
  | test up buf => exact h.test hs
  | store up => exact h.store ho hs
  | take n => exact h.take ho hs
  | move => exact h.move hs
  | write p b => exact h.write hs

theorem logs_inductive : (logs.restrict Orderly).Inductive (Inv (P := P)) where
  init s hs := by
    obtain rfl : s = Sys.init := hs
    exact .init
  step s e s' h hs := h.step hs.2 hs.1

end Inv

/-! ## Every run -/

/-- The log is faithful in runs in which it is empty when it is opened first, `netlog` stores while
it is open and not over bytes that a reader has still to copy. -/
theorem log_faithful [DecidableEq P] {s : Sys P} (h : (logs.restrict Orderly).Reach s) :
    s.Faithful :=
  (Inv.logs_inductive.reach h).faithful

/-- A step of an orderly run. -/
theorem orderly_step [DecidableEq P] {s s' : Sys P} (h : (logs.restrict Orderly).Reach s)
    (e : Act P) (he : s.step e = some s') (ho : Orderly s e) : (logs.restrict Orderly).Reach s' :=
  h.step ⟨he, ho⟩

/-- A text is logged and read. -/
theorem log_faithful_read : ∃ s : Sys Unit, s.returned = [65] ∧ s.Faithful := by
  have hinit : (logs.restrict Orderly).Reach (Sys.init : Sys Unit) := ⟨[], .init rfl⟩
  have hopen := orderly_step hinit (.netlogopen 1) rfl fun _ => rfl
  have htest := orderly_step hopen (.test () [65]) rfl trivial
  have hstore := orderly_step htest (.store ()) rfl ⟨by decide, fun _ _ => .inl rfl⟩
  have htake := orderly_step hstore (.take 100) rfl Nat.one_ne_zero
  have hbyte := orderly_step htake .move rfl trivial
  have hnext := orderly_step hbyte .move rfl trivial
  have hlast := orderly_step hnext .move rfl trivial
  exact ⟨_, rfl, log_faithful hlast⟩

/-- The last close comes between the test of `opens` and the lock: `netlog` stores where there is no
buffer any more. -/
theorem log_strays : ∃ s : Sys Unit, logs.Reach s ∧ ¬ s.Faithful := by
  refine ⟨_, Lts.Reach.exec (f := Sys.step) (fun _ _ _ h => h) ⟨[], .init rfl⟩
    (show [.netlogopen 1, .test () [65], .netlogclose, .store ()].foldlM _ _ = some _ from rfl),
    fun h => ?_⟩
  cases h.stored

end NixMark.Alog
