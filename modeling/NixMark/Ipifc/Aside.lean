import Mathlib.Data.Nat.Basic
import NixMark.Lib.Lts
import NixMark.Lib.Queues
import NixMark.Lib.While

/-!
# Address structures that are put aside (`ip/ipifc.c`)

An `Iplink` or an `Ipself` that was unlinked is put on the list `freeiplink` or `freeipself`, for
readers that hold no lock. `iplinkfree` and `ipselffree` free what they find on the list and link the
structure behind the rest. The addresses of both kinds are in one store; the pointer `l` is to the
link of a structure, or to the head of the list. Times are in milliseconds, and `NOW` is 32 bits of
them.

* `Asides`: the lists; `Purge`, `round`: the loop.
* `Sys.Act`, `reuse`: calls at any times, and what became of each structure.
* `Sys.Safe`: a structure is freed once, five seconds after it was put aside, and is on its list
  until then.
* `asides_safe`: the run theorem.
-/

namespace NixMark.Ipifc

open Lib
open Function (update update_eq_self update_idem update_of_ne update_self)

/-! ## The functions -/

/-- The value of a number in a `ulong`. -/
def ulong (n : Nat) : Nat := n % 4294967296

inductive Kind where
  | iplink
  | ipself
deriving DecidableEq

variable {A : Type}

/-- The lists `freeiplink` and `freeipself`, and the fields of the structures that they use. -/
structure Asides (A : Type) where
  head : Kind → Option A
  next : A → Option A
  expire : A → Nat

namespace Asides

/-- `*l`. -/
def deref (s : Asides A) (k : Kind) (l : Option A) : Option A := l.elim (s.head k) s.next

/-- The link behind the first part of a list. -/
theorem deref_behind {s : Asides A} {L : Kind → List A} {k : Kind}
    (h : Heads s.next s.head L) {pre post : List A} (hl : L k = pre ++ post) :
    s.deref k pre.getLast? = post.head? := by
  have hc := h.chain k
  rw [hl] at hc
  rcases List.eq_nil_or_concat pre with rfl | ⟨pre, q, rfl⟩
  · exact hc.head.symm
  · rw [List.concat_eq_append, List.append_assoc, List.singleton_append] at hc
    rw [List.concat_eq_append, List.getLast?_concat]
    exact hc.rest.head.symm

/-- `*l = p`. -/
def assign [DecidableEq A] (s : Asides A) (k : Kind) (l p : Option A) : Asides A :=
  { s with head := rehead s.head k l p, next := relink s.next l p }

end Asides

/-- The state of the loop, and what it has freed. -/
structure Purge (A : Type) where
  asides : Asides A
  l : Option A
  freed : List A

variable [DecidableEq A]

/-- A round of the loop of `iplinkfree` and `ipselffree`. -/
def round (k : Kind) (now : Nat) (x : Purge A) : Round (Purge A) (Purge A) :=
  match x.asides.deref k x.l with
  | none => .done x
  | some np =>
    if x.asides.expire np > now then
      .next { x with
        asides := x.asides.assign k x.l (x.asides.next np)
        freed := x.freed ++ [np] }
    else .next { x with l := some np }

/-- `p->expire = now + 5000; p->next = nil; *l = p`. -/
def Purge.put (x : Purge A) (k : Kind) (now : Nat) (p : A) : Asides A :=
  let s := { x.asides with expire := Function.update x.asides.expire p (ulong (now + 5000)) }
  let s := { s with next := Function.update s.next p none }
  s.assign k x.l (some p)

/-- The loop of the function, from the head of its list. -/
def Purges (k : Kind) (now : Nat) (s : Asides A) (x : Purge A) : Prop :=
  Ends (round k now) ⟨s, none, []⟩ x

/-! ## Runs -/

/-- A structure is free, in use, or was put aside at some time. -/
inductive Life where
  | free
  | used (k : Kind)
  | aside (k : Kind) (since : Nat)

def Life.since : Life → Option Nat
  | .free | .used _ => none
  | .aside _ t => some t

/-- A call of `free`: when the structure was put aside, if it is put aside, and the time. -/
structure Free (A : Type) where
  np : A
  since : Option Nat
  time : Nat

/-- `life` and `frees` are not in the code. -/
structure Sys (A : Type) where
  time : Nat
  asides : Asides A
  life : A → Life
  frees : List (Free A)

namespace Sys

inductive Act (A : Type) where
  | wait (ms : Nat)
  /-- `smalloc` of a structure -/
  | alloc (k : Kind) (p : A)
  | iplinkfree (p : A)
  | ipselffree (p : A)

def init : Sys A where
  time := 0
  asides := ⟨fun _ => none, fun _ => none, fun _ => 0⟩
  life _ := .free
  frees := []

def free (s : Sys A) (np : A) : Sys A :=
  { s with
    life := Function.update s.life np .free
    frees := s.frees ++ [⟨np, (s.life np).since, s.time⟩] }

/-- After the loop. -/
def put (s : Sys A) (k : Kind) (p : A) (x : Purge A) : Sys A :=
  let s := x.freed.foldl free s
  { s with
    asides := x.put k (ulong s.time) p
    life := Function.update s.life p (.aside k s.time) }

/-- `iplinkfree` and `ipselffree` are called for a structure in use, that was unlinked. -/
def putaside (s : Sys A) (k : Kind) (p : A) (s' : Sys A) : Prop :=
  s.life p = .used k ∧ ∃ x, Purges k (ulong s.time) s.asides x ∧ s' = s.put k p x

def step (s : Sys A) (e : Act A) (s' : Sys A) : Prop :=
  match e with
  | .wait ms => s' = { s with time := s.time + ms }
  | .alloc k p => s.life p = .free ∧ s' = { s with life := Function.update s.life p (.used k) }
  | .iplinkfree p => s.putaside .iplink p s'
  | .ipselffree p => s.putaside .ipself p s'

/-- No structure was freed that was not put aside five seconds before, and what is put aside is on
its list. -/
structure Safe (s : Sys A) : Prop where
  late : ∀ f ∈ s.frees, ∃ t ∈ f.since, t + 5000 ≤ f.time
  waits : ∃ L, Heads s.asides.next s.asides.head L ∧
    ∀ k p, p ∈ L k ↔ ∃ t, s.life p = .aside k t

/-- What was put aside less than five seconds ago does not pass the test of the loop. -/
def Late (s : Sys A) (k : Kind) : Prop :=
  ∀ p t, s.life p = .aside k t → t + 5000 ≤ s.time ∨ ulong (ulong t + 5000) ≤ ulong s.time

/-- Both functions are called when that is so. -/
def Patient (s : Sys A) : Act A → Prop
  | .wait _ | .alloc _ _ => True
  | .iplinkfree _ => s.Late .iplink
  | .ipselffree _ => s.Late .ipself

end Sys

/-- Calls of the functions, one at a time, as time passes. -/
def reuse : Lts (Sys A) (Sys.Act A) where
  init s := s = Sys.init
  step := Sys.step

/-! ## The loop -/

/-- What the loop leaves on the list. -/
def stays (s : Asides A) (now : Nat) (l : List A) : List A := l.filter fun p => s.expire p ≤ now

/-- What it frees. -/
def goes (s : Asides A) (now : Nat) (l : List A) : List A := l.filter fun p => now < s.expire p

section

variable {s : Asides A} {L : Kind → List A} {k : Kind} (now : Nat)

/-- The loop goes through the list: it frees what passes the test and unlinks it, and the pointer is
then behind the rest. The induction is on the part that it has not seen. -/
theorem purges_from (pre post freed : List A) (h : Heads s.next s.head L)
    (hl : L k = pre ++ post) :
    ∃ x : Purge A, Ends (round k now) ⟨s, pre.getLast?, freed⟩ x ∧
      x.l = (pre ++ stays s now post).getLast? ∧ x.freed = freed ++ goes s now post ∧
      x.asides.expire = s.expire ∧
      Heads x.asides.next x.asides.head (update L k (pre ++ stays s now post)) := by
  induction post generalizing s L pre freed with
  | nil =>
    have hd := Asides.deref_behind h hl
    refine ⟨⟨s, pre.getLast?, freed⟩, (ends_done ?_).mpr rfl, ?_, ?_, rfl, ?_⟩
    · unfold round
      rw [hd]
      rfl
    · rw [stays, List.filter_nil, List.append_nil]
    · rw [goes, List.filter_nil, List.append_nil]
    · rw [stays, List.filter_nil, ← hl, update_eq_self]
      exact h
  | cons np post ih =>
    have hd : s.deref k pre.getLast? = some np := Asides.deref_behind h hl
    by_cases hexp : s.expire np > now
    · have hround : round k now ⟨s, pre.getLast?, freed⟩ =
          .next ⟨s.assign k pre.getLast? (s.next np), pre.getLast?, freed ++ [np]⟩ := by
        unfold round
        rw [hd]
        exact if_pos hexp
      obtain ⟨x, hx, hxl, hf, he, hheads⟩ := ih (s := s.assign k pre.getLast? (s.next np))
        pre (freed ++ [np]) (h.remove hl) (update_self ..)
      have hstays : stays s now (np :: post) = stays s now post :=
        List.filter_cons_of_neg (by simpa using hexp)
      have hgoes : goes s now (np :: post) = np :: goes s now post :=
        List.filter_cons_of_pos (by simpa using hexp)
      refine ⟨x, (ends_next hround).mpr hx, ?_, ?_, he, ?_⟩
      · rw [hstays]
        exact hxl
      · rw [hgoes, hf, List.append_assoc]
        rfl
      · rw [hstays]
        rwa [update_idem] at hheads
    · have hround : round k now ⟨s, pre.getLast?, freed⟩ =
          .next ⟨s, (pre ++ [np]).getLast?, freed⟩ := by
        unfold round
        rw [hd, List.getLast?_concat]
        exact if_neg hexp
      have hl' : L k = (pre ++ [np]) ++ post := by
        rw [hl, List.append_assoc, List.singleton_append]
      obtain ⟨x, hx, hxl, hf, he, hheads⟩ := ih (pre ++ [np]) freed h hl'
      have hstays : stays s now (np :: post) = np :: stays s now post :=
        List.filter_cons_of_pos (by simpa using hexp)
      have hgoes : goes s now (np :: post) = goes s now post :=
        List.filter_cons_of_neg (by simpa using hexp)
      have happ : pre ++ np :: stays s now post = pre ++ [np] ++ stays s now post := by
        rw [List.append_assoc, List.singleton_append]
      refine ⟨x, (ends_next hround).mpr hx, ?_, ?_, he, ?_⟩
      · rw [hstays, happ]
        exact hxl
      · rw [hgoes]
        exact hf
      · rw [hstays, happ]
        exact hheads

/-- The function as a whole. -/
theorem purges_spec (h : Heads s.next s.head L) {p : A} (hp : ∀ k, p ∉ L k) :
    ∃ x, Purges k now s x ∧ x.freed = goes s now (L k) ∧
      (x.put k now p).expire = update s.expire p (ulong (now + 5000)) ∧
      Heads (x.put k now p).next (x.put k now p).head (update L k (stays s now (L k) ++ [p])) := by
  obtain ⟨x, hx, hl, hf, he, hheads⟩ := purges_from now [] (L k) [] h rfl
  rw [List.nil_append] at hl hf hheads
  refine ⟨x, hx, hf, ?_, ?_⟩
  · show update x.asides.expire p _ = _
    rw [he]
  · have hout : ∀ k', p ∉ update L k (stays s now (L k)) k' := by
      intro k' hin
      by_cases hk : k' = k
      · subst hk
        rw [update_self] at hin
        exact hp k' (List.mem_filter.mp hin).1
      · rw [update_of_ne hk] at hin
        exact hp k' hin
    have hself : update L k (stays s now (L k)) k = stays s now (L k) ++ [] := by
      rw [update_self, List.append_nil]
    have hput := hheads.insert hself hout
    rw [update_idem, ← hl] at hput
    exact hput

end

/-! ## Every run -/

namespace Sys

variable {s s' : Sys A}

/-- Structures are freed that were put aside five seconds ago. -/
theorem free_late {l : List A} (hn : l.Nodup)
    (hlate : ∀ f ∈ s.frees, ∃ t ∈ f.since, t + 5000 ≤ f.time)
    (hl : ∀ p ∈ l, ∃ t ∈ (s.life p).since, t + 5000 ≤ s.time) :
    (∀ f ∈ (l.foldl free s).frees, ∃ t ∈ f.since, t + 5000 ≤ f.time) ∧
      (l.foldl free s).time = s.time ∧
      ∀ p, (l.foldl free s).life p = if p ∈ l then .free else s.life p := by
  induction l generalizing s with
  | nil => exact ⟨hlate, rfl, fun p => rfl⟩
  | cons np l ih =>
    obtain ⟨hnp, hn⟩ := List.nodup_cons.mp hn
    have hlate' : ∀ f ∈ (s.free np).frees, ∃ t ∈ f.since, t + 5000 ≤ f.time := by
      intro f hf
      rcases List.mem_append.mp hf with hf | hf
      · exact hlate f hf
      · obtain rfl := List.mem_singleton.mp hf
        exact hl np List.mem_cons_self
    have hl' : ∀ p ∈ l, ∃ t ∈ ((s.free np).life p).since, t + 5000 ≤ (s.free np).time := by
      intro p hp
      have hne : p ≠ np := ne_of_mem_of_not_mem hp hnp
      show ∃ t ∈ (update s.life np Life.free p).since, _
      rw [update_of_ne hne]
      exact hl p (List.mem_cons_of_mem np hp)
    obtain ⟨hfrees, htime, hlife⟩ := ih hn hlate' hl'
    refine ⟨hfrees, htime, fun p => ?_⟩
    rw [List.foldl_cons, hlife]
    show (if p ∈ l then Life.free else update s.life np .free p) = _
    by_cases hp : p = np
    · subst hp
      rw [update_self, if_pos List.mem_cons_self, ite_self]
    · rw [update_of_ne hp]
      simp only [List.mem_cons, hp, false_or]

/-- What became of each structure. -/
theorem put_life {k : Kind} {p : A} {x : Purge A} (hp : s.life p = .used k)
    (htime : (x.freed.foldl free s).time = s.time)
    (hlife : ∀ q, (x.freed.foldl free s).life q = if q ∈ x.freed then .free else s.life q)
    (q : A) (k' : Kind) (t : Nat) : (s.put k p x).life q = .aside k' t ↔
      (q = p ∧ k' = k ∧ t = s.time) ∨ (q ∉ x.freed ∧ s.life q = .aside k' t) := by
  show update (x.freed.foldl free s).life p (.aside k (x.freed.foldl free s).time) q = _ ↔ _
  by_cases hq : q = p
  · subst hq
    rw [update_self, htime, hp]
    constructor
    · intro he
      cases he
      exact .inl ⟨rfl, rfl, rfl⟩
    · rintro (⟨-, rfl, rfl⟩ | ⟨-, he⟩)
      · rfl
      · cases he
  · rw [update_of_ne hq, hlife]
    by_cases hin : q ∈ x.freed
    · rw [if_pos hin]
      constructor
      · intro he
        cases he
      · rintro (⟨he, -⟩ | ⟨hnot, -⟩)
        · exact absurd he hq
        · exact absurd hin hnot
    · rw [if_neg hin]
      exact ⟨fun he => .inr ⟨hin, he⟩, fun he => (he.resolve_left fun he => hq he.1).2⟩

/-- What holds in every run: what is put aside has the time in its field. -/
structure Inv (s : Sys A) : Prop where
  safe : s.Safe
  value : ∀ p k t, s.life p = .aside k t → s.asides.expire p = ulong (ulong t + 5000)

omit [DecidableEq A] in
theorem Inv.init : Inv (init : Sys A) where
  safe := {
    late := fun f hf => by cases hf
    waits := by
      refine ⟨fun _ => [], ⟨fun _ => rfl, fun _ => .nil, fun h => by cases h⟩, fun k p => ?_⟩
      exact ⟨fun h => (List.not_mem_nil h).elim, fun ⟨t, h⟩ => by cases h⟩ }
  value p k t h := by cases h

theorem Inv.putaside (h : Inv s) {k : Kind} {p : A} (hlate : s.Late k)
    (hs : s.putaside k p s') : Inv s' := by
  obtain ⟨hp, y, hy, rfl⟩ := hs
  obtain ⟨L, hheads, hL⟩ := h.safe.waits
  have hout : ∀ k', p ∉ L k' := by
    intro k' hin
    obtain ⟨t, ht⟩ := (hL k' p).mp hin
    rw [hp] at ht
    cases ht
  obtain ⟨x, hx, hfreed, hexp, hput⟩ := purges_spec (k := k) (ulong s.time) hheads hout
  obtain rfl := hx.unique hy
  -- what the loop frees was put aside long ago
  have hold : ∀ q ∈ x.freed, ∃ t, s.life q = .aside k t ∧ t + 5000 ≤ s.time := by
    intro q hq
    rw [hfreed] at hq
    obtain ⟨hq, hgt⟩ := List.mem_filter.mp hq
    obtain ⟨t, ht⟩ := (hL k q).mp hq
    refine ⟨t, ht, (hlate q t ht).resolve_right fun hle => ?_⟩
    have hgt := of_decide_eq_true hgt
    rw [h.value q k t ht] at hgt
    omega
  have hnodup : x.freed.Nodup := by
    rw [hfreed]
    exact (hheads.nodup k).sublist List.filter_sublist
  obtain ⟨hfrees, htime, hlife⟩ := free_late hnodup h.safe.late fun q hq => by
    obtain ⟨t, ht, hle⟩ := hold q hq
    exact ⟨t, by rw [ht]; rfl, hle⟩
  have hpfree : p ∉ x.freed := by
    rw [hfreed]
    exact fun hin => hout k (List.mem_filter.mp hin).1
  have hafter := put_life hp htime hlife
  have hexp' : (s.put k p x).asides.expire =
      update s.asides.expire p (ulong (ulong s.time + 5000)) := by
    show (x.put k (ulong (x.freed.foldl free s).time) p).expire = _
    rw [htime]
    exact hexp
  refine ⟨⟨hfrees, ?_⟩, fun q k' t hq => ?_⟩
  · refine ⟨update L k (stays s.asides (ulong s.time) (L k) ++ [p]), ?_, fun k' q => ?_⟩
    · show Heads (x.put k (ulong (x.freed.foldl free s).time) p).next
        (x.put k (ulong (x.freed.foldl free s).time) p).head _
      rw [htime]
      exact hput
    · simp only [hafter]
      by_cases hk : k' = k
      · subst hk
        rw [update_self, List.mem_append, List.mem_singleton]
        constructor
        · rintro (hin | rfl)
          · obtain ⟨hin, hle⟩ := List.mem_filter.mp hin
            obtain ⟨t, ht⟩ := (hL k' q).mp hin
            refine ⟨t, .inr ⟨fun hf => ?_, ht⟩⟩
            rw [hfreed] at hf
            have hgt := of_decide_eq_true (List.mem_filter.mp hf).2
            have hle := of_decide_eq_true hle
            omega
          · exact ⟨s.time, .inl ⟨rfl, rfl, rfl⟩⟩
        · rintro ⟨t, ⟨rfl, -, -⟩ | ⟨hnot, ht⟩⟩
          · exact .inr rfl
          · refine .inl (List.mem_filter.mpr ⟨(hL k' q).mpr ⟨t, ht⟩, ?_⟩)
            rw [hfreed] at hnot
            refine decide_eq_true (Nat.le_of_not_lt fun hlt => hnot ?_)
            exact List.mem_filter.mpr ⟨(hL k' q).mpr ⟨t, ht⟩, decide_eq_true hlt⟩
      · rw [update_of_ne hk, hL]
        constructor
        · rintro ⟨t, ht⟩
          refine ⟨t, .inr ⟨fun hf => ?_, ht⟩⟩
          obtain ⟨t', ht', -⟩ := hold q hf
          rw [ht] at ht'
          cases ht'
          exact hk rfl
        · rintro ⟨t, ⟨-, he, -⟩ | ⟨-, ht⟩⟩
          · exact absurd he hk
          · exact ⟨t, ht⟩
  · rw [hexp']
    rcases (hafter q k' t).mp hq with ⟨rfl, -, rfl⟩ | ⟨-, ht⟩
    · rw [update_self]
    · have hne : q ≠ p := by
        rintro rfl
        rw [hp] at ht
        cases ht
      rw [update_of_ne hne]
      exact h.value q k' t ht

/-- What is allocated was not put aside. -/
theorem Inv.alloc (h : Inv s) {k : Kind} {p : A} (hp : s.life p = .free) :
    Inv { s with life := update s.life p (.used k) } := by
  have hafter : ∀ q k' t, update s.life p (.used k) q = .aside k' t ↔
      s.life q = .aside k' t := by
    intro q k' t
    by_cases hq : q = p
    · subst hq
      rw [update_self, hp]
      constructor
      · intro he
        cases he
      · intro he
        cases he
    · rw [update_of_ne hq]
  obtain ⟨L, hheads, hL⟩ := h.safe.waits
  refine ⟨⟨h.safe.late, L, hheads, fun k' q => ?_⟩, fun q k' t hq => ?_⟩
  · simp only [hafter]
    exact hL k' q
  · exact h.value q k' t ((hafter q k' t).mp hq)

theorem safe_inductive : (reuse.restrict Patient).Inductive (Inv (A := A)) where
  init s hs := by
    obtain rfl : s = init := hs
    exact .init
  step s e s' h hs := by
    obtain ⟨hs, hp⟩ := hs
    cases e with
    | wait ms =>
      obtain rfl : s' = { s with time := s.time + ms } := hs
      exact ⟨⟨h.safe.late, h.safe.waits⟩, h.value⟩
    | alloc k p =>
      obtain ⟨hfree, rfl⟩ := hs
      exact h.alloc hfree
    | iplinkfree p => exact h.putaside hp hs
    | ipselffree p => exact h.putaside hp hs

end Sys

/-- No structure is freed early or twice, and each that waits is on its list once, as long as the
test of the loop does not hold for what was put aside less than five seconds ago. -/
theorem asides_safe {s : Sys A} (h : (reuse.restrict Sys.Patient).Reach s) : s.Safe :=
  (Sys.safe_inductive.reach h).safe

/-- A step that meets the condition. -/
theorem patient_step {s s' : Sys A} (h : (reuse.restrict Sys.Patient).Reach s) (e : Sys.Act A)
    (he : s.step e s') (hp : s.Patient e) : (reuse.restrict Sys.Patient).Reach s' :=
  h.step ⟨he, hp⟩

/-- Two structures are put aside, six seconds apart. -/
theorem asides_safe_apart : ∃ s : Sys Bool, s.asides.head .iplink = some false ∧ s.Safe := by
  have hinit : (reuse.restrict Sys.Patient).Reach (Sys.init : Sys Bool) := ⟨[], .init rfl⟩
  have hone := patient_step hinit (.alloc .iplink false) ⟨rfl, rfl⟩ trivial
  have htwo := patient_step hone (.alloc .iplink true) ⟨rfl, rfl⟩ trivial
  have haside := patient_step htwo (.iplinkfree false) ⟨rfl, _, ⟨1, rfl⟩, rfl⟩ fun p t hp => by
    -- nothing waits
    cases p <;> cases hp
  have hwait := patient_step haside (.wait 6000) rfl trivial
  have hlast := patient_step hwait (.iplinkfree true) ⟨rfl, _, ⟨2, rfl⟩, rfl⟩ fun p t hp => by
    cases p with
    | true => cases hp
    | false =>
      obtain rfl : 0 = t := by injection hp
      exact .inl (by decide)
  exact ⟨_, rfl, asides_safe hlast⟩

theorem reuse_step {s s' : Sys A} (h : reuse.Reach s) (e : Sys.Act A) (he : s.step e s') :
    reuse.Reach s' :=
  h.step he

/-- A structure is freed as soon as the next one is put aside. -/
theorem asides_early : ∃ s : Sys Nat, reuse.Reach s ∧ ¬ s.Safe := by
  have hinit : reuse.Reach (Sys.init : Sys Nat) := ⟨[], .init rfl⟩
  have hone := reuse_step hinit (.alloc .iplink 1) ⟨rfl, rfl⟩
  have htwo := reuse_step hone (.alloc .iplink 2) ⟨rfl, rfl⟩
  have haside := reuse_step htwo (.iplinkfree 1) ⟨rfl, _, ⟨1, rfl⟩, rfl⟩
  have hlast := reuse_step haside (.iplinkfree 2) ⟨rfl, _, ⟨2, rfl⟩, rfl⟩
  refine ⟨_, hlast, fun hsafe => ?_⟩
  obtain ⟨t, ht, hle⟩ := hsafe.late ⟨1, some 0, 0⟩ (List.mem_singleton.mpr rfl)
  cases ht
  exact absurd hle (by decide)

end NixMark.Ipifc
