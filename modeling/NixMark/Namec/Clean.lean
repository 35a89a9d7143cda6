import NixMark.Namec.Path

/-!
# Names relative to the dot (`cleanpname`, `Nfmt` of `port/chan.c`)

A relative name is printed behind the path of `up->dot`, in a buffer of `slen + strlen + 2` bytes, and
the result is cleaned.

* `Nfmt_length`: the bytes of a path that is printed.
* `cleanpname_exact`: the buffer is large enough for every name, except for a root that goes back to a
  structure that was just allocated; there the last rune is lost (`cleanpname_root`).

`cleanname` is a parameter: it works on the string alone.
-/

namespace NixMark.Namec

/-- `%N` -/
def Nfmt (p : Path) : Str :=
  match p.elems with
  | [] => ['/']
  | el :: l => (if el.head? = some '#' then [] else ['/']) ++ el ++
      l.flatMap fun el => '/' :: el

/-- What fits into `room` bytes. After the first rune that does not, nothing is written. -/
def room : Nat → Str → Str
  | _, [] => []
  | n, c :: s => if c.utf8Size ≤ n then c :: room (n - c.utf8Size) s else []

/-- `seprint(s, s+n, "%N/%s", path, name)` -/
def seprint (n : Nat) (path : Path) (name : Str) : Str := room (n - 1) (Nfmt path ++ '/' :: name)

/-- A name that is resolved from the dot. -/
def Relative (name : Str) : Prop := name ≠ [] ∧ name.head? ≠ some '/' ∧ name.head? ≠ some '#'

def cleanpname (cleanname : Str → Str) (dot : Option Path) (name : Str) : Str :=
  match dot with
  | none => cleanname name
  | some path =>
    if name.head? = some '/' ∨ name.head? = some '#' then cleanname name
    else cleanname (seprint (path.slen + 1 + strlen name + 1) path name)

/-! ## Lengths -/

variable {p : Path} {l : List Str} {s name : Str} {n : Nat} {used : Bool}

theorem strlen_append (s s' : Str) : strlen (s ++ s') = strlen s + strlen s' := by
  induction s with
  | nil => exact (Nat.zero_add _).symm
  | cons c s ih =>
    rw [List.cons_append, strlen, ih, strlen]
    omega

theorem strlen_slash (s : Str) : strlen ('/' :: s) = strlen s + 1 := Nat.add_comm 1 _

theorem strlen_flatMap (l : List Str) : strlen (l.flatMap fun el => '/' :: el) = span l := by
  induction l with
  | nil => rfl
  | cons el l ih => rw [List.flatMap_cons, strlen_append, strlen_slash, ih, span]

theorem Nfmt_root (h : p.Holds []) : Nfmt p = ['/'] := by
  unfold Nfmt
  rw [h.elems]

/-- A device has no slash before it. -/
theorem Nfmt_length {el : Str} (h : p.Holds (el :: l)) :
    strlen (Nfmt p) + (if el.head? = some '#' then 1 else 0) = span (el :: l) := by
  unfold Nfmt
  rw [h.elems]
  simp only [strlen_append, strlen_flatMap, span]
  split
  · rw [show strlen [] = 0 from rfl]
    omega
  · rw [show strlen ['/'] = 1 from rfl]
    omega

theorem room_all (h : strlen s ≤ n) : room n s = s := by
  induction s generalizing n with
  | nil => cases n <;> rfl
  | cons c s ih =>
    rw [strlen] at h
    rw [room, if_pos (by omega), ih (by omega)]

/-! ## The buffer -/

/-- The printed path with its name fits when `slen` bounds the path. -/
theorem cleanpname_whole (cleanname : Str → Str) (h : strlen (Nfmt p) ≤ p.slen)
    (hname : Relative name) :
    cleanpname cleanname (some p) name = cleanname (Nfmt p ++ '/' :: name) := by
  have hlen : strlen (Nfmt p ++ '/' :: name) ≤ p.slen + 1 + strlen name + 1 - 1 := by
    rw [strlen_append, strlen_slash]
    omega
  exact (if_neg (not_or.mpr hname.2)).trans (congrArg cleanname (room_all hlen))

/-- Only the root of a new structure is longer than its `slen`. -/
theorem Nfmt_le_slen (h : Built used p) : strlen (Nfmt p) ≤ p.slen ↔ p.nels ≠ 0 ∨ used = true := by
  obtain ⟨l, hl⟩ := h.spans
  have hslen := hl.slen
  have hnels := hl.holds.nels
  cases l with
  | nil =>
    have hnil : p.nels = 0 := hnels
    rw [Nfmt_root hl.holds, show strlen ['/'] = 1 from rfl, hslen, hnil, span]
    cases used <;> decide
  | cons el l =>
    have hlen := Nfmt_length hl.holds
    rw [List.length_cons] at hnels
    exact iff_of_true (by omega) (.inl (by omega))

/-- In every other path a relative name is resolved as a whole. -/
theorem cleanpname_exact (cleanname : Str → Str) (h : Built used p) :
    (strlen (Nfmt p) ≤ p.slen ∧ ∀ name, Relative name →
        cleanpname cleanname (some p) name = cleanname (Nfmt p ++ '/' :: name)) ↔
      p.nels ≠ 0 ∨ used = true := by
  rw [← Nfmt_le_slen h]
  exact ⟨And.left, fun hle => ⟨hle, fun name hname => cleanpname_whole cleanname hle hname⟩⟩

/-! ## A new structure and one that was used before -/

/-- What `cleanname` does to a name without dots: of several slashes one is kept. -/
private def squeeze (slash : Bool) : Str → Str
  | [] => []
  | c :: s =>
    if c = '/' then if slash then squeeze true s else '/' :: squeeze true s else c :: squeeze false s

/-- `/usr` in a new structure, and the root in one that was used before. -/
theorem cleanpname_exact_usr : ∃ p q, newpath Path.fresh (some ['/', 'u', 's', 'r']) = some p ∧
    newpath (paterm p) (some ['/']) = some q ∧
    cleanpname (squeeze false) (some p) ['b', 'i', 'n'] = ['/', 'u', 's', 'r', '/', 'b', 'i', 'n'] ∧
    cleanpname (squeeze false) (some q) ['b', 'i', 'n'] = ['/', 'b', 'i', 'n'] := by
  obtain ⟨p, hp, hspans⟩ := newpath_spec .fresh ['/', 'u', 's', 'r']
  obtain ⟨q, hq, hroot⟩ := newpath_spec (.used p) ['/']
  have hbin : Relative ['b', 'i', 'n'] := by
    unfold Relative
    decide
  have hnels : p.nels ≠ 0 := by
    rw [hspans.holds.nels]
    decide
  have hbuilt := (cleanpname_exact (squeeze false) (.newpath .fresh hp)).mpr (.inl hnels)
  have hbuilt' := (cleanpname_exact (squeeze false) (.newpath (.used p) hq)).mpr (.inr rfl)
  refine ⟨p, q, hp, hq, ?_, ?_⟩
  · rw [hbuilt.2 _ hbin]
    unfold Nfmt
    rw [hspans.holds.elems]
    decide
  · rw [hbuilt'.2 _ hbin, Nfmt_root hroot.holds]
    decide

/-- The root in a new structure: `abc` is taken for `ab`. -/
theorem cleanpname_truncates : ∃ p, newpath Path.fresh (some ['/']) = some p ∧
    p.slen < strlen (Nfmt p) ∧
    cleanpname (squeeze false) (some p) ['a', 'b', 'c'] = ['/', 'a', 'b'] ∧
    squeeze false (Nfmt p ++ '/' :: ['a', 'b', 'c']) = ['/', 'a', 'b', 'c'] := by
  obtain ⟨p, hp, hspans⟩ := newpath_spec .fresh ['/']
  have hrun : (newpath Path.fresh (some ['/'])).all fun p => p.slen < strlen (Nfmt p) ∧
      cleanpname (squeeze false) (some p) ['a', 'b', 'c'] = ['/', 'a', 'b'] ∧
      squeeze false (Nfmt p ++ '/' :: ['a', 'b', 'c']) = ['/', 'a', 'b', 'c'] := by decide
  rw [hp] at hrun
  exact ⟨p, hp, of_decide_eq_true hrun⟩

end NixMark.Namec
