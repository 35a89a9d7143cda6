import Mathlib.Data.List.Perm.Basic
import NixMark.Lib.Dlist
import NixMark.Lib.While

/-!
# Clock replacement of segments (`port/segment.c`)

A `Segq` and the fields of the segments that the functions use; the segments have addresses.

* `unlinkseg`, `linkseg`, `segvictim`: the functions of the source.
* `Segq.Holds`: the links of the queue are those of a list.
* `pass_spec`: the loop until the head of the queue comes round again.
* `segvictim_finds`: which segment is found.
-/

namespace NixMark.Seg

open Lib
open Function (update update_eq_self update_of_ne update_self)

variable {A : Type}

structure Segq (A : Type) where
  hd : Option A
  tl : Option A
  lnext : A → Option A
  lprev : A → Option A
  used : A → Bool
  ref : A → Int

/-- The queue has the segments of the list. -/
def Segq.Holds (q : Segq A) (l : List A) : Prop := Dlist q.lnext q.lprev q.hd q.tl l

variable [DecidableEq A]

/-- `s->lprev->lnext = s->lnext`, or the head. -/
def setnext (q : Segq A) (s : A) : Segq A :=
  match q.lprev s with
  | some p => { q with lnext := Function.update q.lnext p (q.lnext s) }
  | none => { q with hd := q.lnext s }

/-- `s->lnext->lprev = s->lprev`, or the tail. -/
def setprev (q : Segq A) (s : A) : Segq A :=
  match q.lnext s with
  | some n => { q with lprev := Function.update q.lprev n (q.lprev s) }
  | none => { q with tl := q.lprev s }

def unlinkseg (q : Segq A) (s : A) : Segq A :=
  let q := setprev (setnext q s) s
  { q with lnext := Function.update q.lnext s none, lprev := Function.update q.lprev s none }

/-- `none` is its panic. -/
def linkseg (q : Segq A) (s : A) : Option (Segq A) :=
  if q.lnext s ≠ none ∨ q.lprev s ≠ none then none
  else
    let q := { q with lprev := Function.update q.lprev s q.tl }
    let q :=
      match q.lprev s with
      | some p => { q with lnext := Function.update q.lnext p (some s) }
      | none => { q with hd := some s }
    some { q with tl := some s }

/-- `if(s->used) s->used = 0` -/
def secondchance (q : Segq A) (s : A) : Segq A :=
  if q.used s then { q with used := Function.update q.used s false } else q

/-- The test at the end of a round. -/
def again (s0 : A) (q : Segq A) (loops : Nat) :
    Round (Segq A × Nat) (Option (Option A × Segq A)) :=
  match q.hd with
  | none => .done (some (none, q))
  | some s =>
    if s ≠ s0 then .next (q, loops)
    else if loops = 0 then .next (q, loops + 1)
    else .done (some (none, q))

/-- A round of the loop, that ends with the value returned and the queue; `none` is a panic. -/
def victimround (s0 : A) (x : Segq A × Nat) : Round (Segq A × Nat) (Option (Option A × Segq A)) :=
  match x.1.hd with
  -- `unlinkseg` of nil
  | none => .done none
  | some s =>
    let q := unlinkseg x.1 s
    if !q.used s ∧ q.ref s = 1 then .done (some (some s, q))
    else
      match linkseg (secondchance q s) s with
      | none => .done none
      | some q => again s0 q x.2

/-- What `segvictim` returns, and the queue after it. -/
def segvictim (q : Segq A) (out : Option (Option A × Segq A)) : Prop :=
  match q.hd with
  | none => out = some (none, q)
  | some s0 => Ends (victimround s0) (q, 0) out

/-! ## Links -/

variable {q : Segq A} {s : A} {l : List A}

omit [DecidableEq A] in
theorem Segq.Holds.hd_eq (h : q.Holds (s :: l)) : q.hd = some s :=
  Dlist.hd_eq h

theorem setnext_eq (h : q.lprev s = l.getLast?) :
    setnext q s = { q with
      hd := if l = [] then q.lnext s else q.hd
      lnext := relink q.lnext l.getLast? (q.lnext s) } := by
  unfold setnext
  rw [h]
  cases hl : l.getLast? with
  | none =>
    rw [if_pos (List.getLast?_eq_none_iff.mp hl)]
    rfl
  | some p =>
    have hne : l ≠ [] := fun he => by rw [he] at hl; cases hl
    rw [if_neg hne]
    rfl

theorem setprev_eq (h : q.lnext s = l.head?) :
    setprev q s = { q with
      tl := if l = [] then q.lprev s else q.tl
      lprev := relink q.lprev l.head? (q.lprev s) } := by
  unfold setprev
  rw [h]
  cases hl : l.head? with
  | none =>
    rw [if_pos (List.head?_eq_none_iff.mp hl)]
    rfl
  | some n =>
    have hne : l ≠ [] := fun he => by rw [he] at hl; cases hl
    rw [if_neg hne]
    rfl

/-- A segment is taken out of the queue. -/
theorem unlinkseg_spec (l₁ l₂ : List A) (h : q.Holds (l₁ ++ s :: l₂)) :
    (unlinkseg q s).Holds (l₁ ++ l₂) ∧ (unlinkseg q s).lnext s = none ∧
      (unlinkseg q s).lprev s = none ∧ (unlinkseg q s).used = q.used ∧
      (unlinkseg q s).ref = q.ref := by
  have hn := List.nodup_append.mp h.nodup
  -- the link of the segment itself is read after the first write
  have hsame : relink q.lnext l₁.getLast? (q.lnext s) s = q.lnext s := relink_of_ne fun he =>
    hn.2.2 s (List.mem_of_getLast? he) s List.mem_cons_self rfl
  have hnext : (setnext q s).lnext s = l₂.head? := by
    rw [setnext_eq (Dlist.prev_eq h)]
    exact hsame.trans (Dlist.next_eq h)
  have he : unlinkseg q s = {
      hd := if l₁ = [] then q.lnext s else q.hd
      tl := if l₂ = [] then q.lprev s else q.tl
      lnext := update (relink q.lnext l₁.getLast? (q.lnext s)) s none
      lprev := update (relink q.lprev l₂.head? (q.lprev s)) s none
      used := q.used
      ref := q.ref } := by
    unfold unlinkseg
    rw [setprev_eq hnext, setnext_eq (Dlist.prev_eq h)]
  rw [he]
  exact ⟨Dlist.unlink h, update_self .., update_self .., rfl, rfl⟩

/-- A segment is put in at the end. -/
theorem linkseg_spec (h : q.Holds l) (hs : s ∉ l) (hnext : q.lnext s = none)
    (hprev : q.lprev s = none) :
    ∃ q', linkseg q s = some q' ∧ q'.Holds (l ++ [s]) ∧ q'.used = q.used ∧ q'.ref = q.ref := by
  have htl : q.tl = l.getLast? := Dlist.tl_eq h
  refine ⟨{ q with
    hd := if l = [] then some s else q.hd
    tl := some s
    lnext := relink q.lnext q.tl (some s)
    lprev := update q.lprev s q.tl }, ?_, Dlist.append h hs hnext, rfl, rfl⟩
  unfold linkseg
  rw [if_neg fun hbad => hbad.elim (fun hne => hne hnext) fun hne => hne hprev]
  dsimp only
  rw [update_self]
  cases hl : l.getLast? with
  | none =>
    rw [htl, hl, if_pos (List.getLast?_eq_none_iff.mp hl)]
    rfl
  | some p =>
    have hne : l ≠ [] := fun he => by rw [he] at hl; cases hl
    rw [htl, hl, if_neg hne]
    rfl

/-! ## A pass -/

/-- A segment that `segvictim` returns when it comes to it. -/
def Free (q : Segq A) (s : A) : Prop := q.used s = false ∧ q.ref s = 1

theorem secondchance_spec (h : q.Holds l) (s : A) :
    (secondchance q s).Holds l ∧ (secondchance q s).lnext = q.lnext ∧
      (secondchance q s).lprev = q.lprev ∧ (secondchance q s).ref = q.ref ∧
      (secondchance q s).used = update q.used s false := by
  unfold secondchance
  split
  · exact ⟨h, rfl, rfl, rfl, rfl⟩
  · rename_i hunused
    refine ⟨h, rfl, rfl, rfl, ?_⟩
    rw [← Bool.eq_false_iff.mpr hunused, update_eq_self]

/-- A segment that is kept goes to the end of the queue, and is unused there. -/
theorem victimround_keeps (s0 : A) (loops : Nat) (h : q.Holds (s :: l)) (hs : ¬ Free q s) :
    ∃ q', q'.Holds (l ++ [s]) ∧ q'.ref = q.ref ∧ q'.used = update q.used s false ∧
      victimround s0 (q, loops) = again s0 q' loops := by
  obtain ⟨hu, hnext, hprev, hused, href⟩ := unlinkseg_spec [] l h
  rw [List.nil_append] at hu
  obtain ⟨hu₁, hnext₁, hprev₁, href₁, hused₁⟩ := secondchance_spec hu s
  obtain ⟨q', hlink, hq', hused', href'⟩ := linkseg_spec hu₁ (List.nodup_cons.mp h.nodup).1
    (by rw [hnext₁, hnext]) (by rw [hprev₁, hprev])
  refine ⟨q', hq', by rw [href', href₁, href], by rw [hused', hused₁, hused], ?_⟩
  have hkeep : ¬ ((!(unlinkseg q s).used s) = true ∧ (unlinkseg q s).ref s = 1) := by
    rw [hused, href]
    exact fun ⟨hf, hr⟩ => hs ⟨by simpa using hf, hr⟩
  unfold victimround
  rw [h.hd_eq]
  dsimp only
  rw [if_neg hkeep, hlink]

variable {s0 : A}

theorem victimround_finds {loops : Nat} (h : q.Holds (s :: l)) (hs : Free q s) :
    victimround s0 (q, loops) = .done (some (some s, unlinkseg q s)) := by
  obtain ⟨-, -, -, hused, href⟩ := unlinkseg_spec [] l h
  unfold victimround
  rw [h.hd_eq]
  dsimp only
  rw [if_pos]
  rw [hused, href]
  exact ⟨by rw [hs.1]; rfl, hs.2⟩

/-- The head of the queue is another segment than the first one, or has come round. -/
theorem again_eq {loops : Nat} (h : q.Holds (s :: l)) :
    again s0 q loops =
      if s ≠ s0 then .next (q, loops)
      else if loops = 0 then .next (q, loops + 1)
      else .done (some (none, q)) := by
  unfold again
  rw [h.hd_eq]

/-- What the rest of a pass leads to, with `l` still to come and `seen` behind it: a segment is
found, with all before it kept; or none is, and all are unused. -/
def Pass (s0 : A) (loops : Nat) (q : Segq A) (l seen : List A) : Prop :=
  (∃ pre s post q', l = pre ++ s :: post ∧ Free q s ∧ (∀ t ∈ pre, ¬ Free q t) ∧
    q'.Holds (post ++ seen ++ pre) ∧ q'.lnext s = none ∧ q'.lprev s = none ∧ q'.ref = q.ref ∧
    ∀ out, Ends (victimround s0) (q, loops) out ↔ out = some (some s, q')) ∨
  ((∀ t ∈ l, ¬ Free q t) ∧ ∃ q' : Segq A, q'.Holds (seen ++ l) ∧ q'.ref = q.ref ∧
    (∀ t, q'.used t = if t ∈ l then false else q.used t) ∧
    ∀ out, Ends (victimround s0) (q, loops) out ↔
      if loops = 0 then Ends (victimround s0) (q', 1) out else out = some (none, q'))

/-- The induction is on what is still to come. -/
theorem pass_spec (loops : Nat) {seen : List A} (h : q.Holds (l ++ seen)) (hl : l ≠ [])
    (hfirst : (seen ++ l).head? = some s0) : Pass s0 loops q l seen := by
  induction l generalizing q seen with
  | nil => exact absurd rfl hl
  | cons s l ih =>
    by_cases hs : Free q s
    · obtain ⟨hu, hnext, hprev, -, href⟩ := unlinkseg_spec [] (l ++ seen) h
      refine .inl ⟨[], s, l, unlinkseg q s, rfl, hs, (fun t ht => by cases ht), ?_, hnext, hprev,
        href, fun out => ends_done (victimround_finds h hs)⟩
      rw [List.append_nil]
      exact hu
    · obtain ⟨q', hq', href, hused, hround⟩ := victimround_keeps s0 loops h hs
      have hq' : q'.Holds (l ++ (seen ++ [s])) := by
        rw [← List.append_assoc]
        exact hq'
      cases l with
      | nil =>
        -- the first segment is at the head again
        have hq'' : q'.Holds (seen ++ [s]) := hq'
        refine .inr ⟨fun t ht => by rw [List.mem_singleton.mp ht]; exact hs, q', hq'', href,
          fun t => ?_, fun out => ?_⟩
        · rw [hused]
          by_cases ht : t = s
          · rw [ht, update_self, if_pos List.mem_cons_self]
          · rw [update_of_ne ht, if_neg fun h => ht (List.mem_singleton.mp h)]
        · obtain ⟨l', hl'⟩ := List.head?_eq_some_iff.mp hfirst
          rw [hl'] at hq''
          rw [again_eq hq'', if_neg (not_not.mpr rfl)] at hround
          by_cases hz : loops = 0
          · rw [if_pos hz, hz] at hround
            rw [if_pos hz]
            rw [hz]
            exact ends_next hround
          · rw [if_neg hz] at hround
            rw [if_neg hz]
            exact ends_done hround
      | cons r l =>
        have hn : (s :: r :: l ++ seen).Nodup := h.nodup
        have hne : r ≠ s0 := by
          rintro rfl
          cases seen with
          | nil =>
            obtain rfl := Option.some.inj hfirst
            exact (List.nodup_cons.mp hn).1 (List.mem_cons_self)
          | cons a seen =>
            obtain rfl := Option.some.inj hfirst
            exact (List.nodup_append.mp hn).2.2 a (by simp) a List.mem_cons_self rfl
        rw [again_eq hq', if_pos hne] at hround
        have hseen : (seen ++ [s] ++ r :: l).head? = some s0 := by
          rw [List.append_assoc]
          exact hfirst
        -- what is still to come is not changed
        have hother : ∀ t ∈ r :: l, t ≠ s := fun t ht he =>
          (List.nodup_cons.mp hn).1 (he ▸ List.mem_append_left seen ht)
        have hfree : ∀ t ∈ r :: l, Free q' t ↔ Free q t := by
          intro t ht
          unfold Free
          rw [hused, href, update_of_ne (hother t ht)]
        rcases ih hq' (List.cons_ne_nil r l) hseen with
          ⟨pre, s', post, q'', hl', hs', hpre, hq'', hnext, hprev, href', hends⟩ |
          ⟨hnone, q'', hq'', href', hused', hends⟩
        · refine .inl ⟨s :: pre, s', post, q'', by rw [hl']; rfl, ?_, fun t ht => ?_, ?_, hnext,
            hprev, href'.trans href, fun out => (ends_next hround).trans (hends out)⟩
          · refine (hfree s' ?_).mp hs'
            rw [hl']
            exact List.mem_append_right pre List.mem_cons_self
          · rcases List.mem_cons.mp ht with rfl | ht
            · exact hs
            · refine fun hf => hpre t ht ((hfree t ?_).mpr hf)
              rw [hl']
              exact List.mem_append_left _ ht
          · have happ : post ++ (seen ++ [s]) ++ pre = post ++ seen ++ s :: pre := by simp
            rwa [happ] at hq''
        · refine .inr ⟨fun t ht => ?_, q'', ?_, href'.trans href, fun t => ?_,
            fun out => (ends_next hround).trans (hends out)⟩
          · rcases List.mem_cons.mp ht with rfl | ht
            · exact hs
            · exact fun hf => hnone t ht ((hfree t ht).mpr hf)
          · rwa [List.append_assoc] at hq''
          · rw [hused', hused]
            by_cases hts : t = s
            · rw [hts, update_self, ite_self, if_pos List.mem_cons_self]
            · rw [update_of_ne hts]
              simp only [List.mem_cons, hts, false_or]

/-! ## The function -/

/-- What `segvictim` returns and leaves of a queue with the segments `l`. -/
structure Chosen (q : Segq A) (l : List A) (r : Option A) (q' : Segq A) : Prop where
  none_iff : r = none ↔ ∀ s ∈ l, q.ref s ≠ 1
  ref : ∀ s ∈ r, q.ref s = 1
  off : ∀ s ∈ r, q'.lnext s = none ∧ q'.lprev s = none
  unused : (∃ s ∈ l, q.ref s = 1 ∧ q.used s = false) → ∀ s ∈ r, q.used s = false
  rest : ∃ l', q'.Holds l' ∧ (r.toList ++ l').Perm l

omit [DecidableEq A] in
/-- What is found in the first pass, or in the second one, where nothing is used. -/
theorem found_of {q' : Segq A} {pre post : List A} (hl : l = pre ++ s :: post) (href : q.ref s = 1)
    (hq' : q'.Holds (post ++ [] ++ pre)) (hnext : q'.lnext s = none) (hprev : q'.lprev s = none)
    (hunused : (∃ t ∈ l, q.ref t = 1 ∧ q.used t = false) → q.used s = false) :
    Chosen q l (some s) q' where
  none_iff := by
    refine iff_of_false (Option.some_ne_none s) fun hall => hall s ?_ href
    rw [hl]
    exact List.mem_append_right pre List.mem_cons_self
  ref t ht := by
    obtain rfl := Option.some.inj ht
    exact href
  off t ht := by
    obtain rfl := Option.some.inj ht
    exact ⟨hnext, hprev⟩
  unused hex t ht := by
    obtain rfl := Option.some.inj ht
    exact hunused hex
  rest := by
    refine ⟨_, hq', ?_⟩
    rw [hl, List.append_nil]
    show (s :: (post ++ pre)).Perm (pre ++ s :: post)
    exact (List.perm_append_comm.cons s).trans List.perm_middle.symm

/-- The loop ends, and finds a segment if there is one that only the cache refers to, rather one that
has not been used. -/
theorem segvictim_finds {q : Segq A} {l : List A} (h : q.Holds l) :
    ∃ r q', segvictim q (some (r, q')) ∧ (∀ out, segvictim q out → out = some (r, q')) ∧
      Chosen q l r q' := by
  cases l with
  | nil =>
    have hcall : segvictim q = fun out => out = some (none, q) := by
      unfold segvictim
      rw [show q.hd = none from h.chain]
    rw [hcall]
    refine ⟨none, q, rfl, fun out ho => ho, ?_, ?_, ?_, ?_, [], h, .refl []⟩
    · exact iff_of_true rfl fun s hs => by cases hs
    · exact fun s hs => by cases hs
    · exact fun s hs => by cases hs
    · exact fun _ s hs => by cases hs
  | cons s0 l₀ =>
    have hcall : segvictim q = fun out => Ends (victimround s0) (q, 0) out := by
      unfold segvictim
      rw [h.hd_eq]
    rw [hcall]
    have hq : q.Holds (s0 :: l₀ ++ []) := by
      rw [List.append_nil]
      exact h
    rcases pass_spec 0 hq (List.cons_ne_nil s0 l₀) rfl with
      ⟨pre, s, post, q', hl, hs, -, hq', hnext, hprev, -, hends⟩ |
      ⟨hnone, q₁, hq₁, href₁, hused₁, hends₁⟩
    · refine ⟨some s, q', (hends _).mpr rfl, fun out => (hends out).mp, ?_⟩
      exact found_of hl hs.2 hq' hnext hprev fun _ => hs.1
    · -- nothing is used in the second pass
      have hq₁ : q₁.Holds (s0 :: l₀ ++ []) := by
        rw [List.append_nil]
        exact hq₁
      have hold : ∀ t ∈ s0 :: l₀, q.ref t = 1 → q.used t = true := by
        intro t ht hr
        by_contra hu
        exact hnone t ht ⟨Bool.eq_false_iff.mpr hu, hr⟩
      rcases pass_spec 1 hq₁ (List.cons_ne_nil s0 l₀) rfl with
        ⟨pre, s, post, q', hl, hs, -, hq', hnext, hprev, -, hends⟩ |
        ⟨hnone₁, q', hq', href', -, hends⟩
      · refine ⟨some s, q', (hends₁ _).mpr ((hends _).mpr rfl),
          fun out ho => (hends out).mp ((hends₁ out).mp ho), ?_⟩
        refine found_of hl (by rw [← href₁]; exact hs.2) hq' hnext hprev ?_
        rintro ⟨t, ht, hr, hu⟩
        rw [hold t ht hr] at hu
        cases hu
      · refine ⟨none, q', (hends₁ _).mpr ((hends _).mpr rfl),
          fun out ho => (hends out).mp ((hends₁ out).mp ho), ?_, ?_, ?_, ?_, _, hq', .refl _⟩
        · refine iff_of_true rfl fun t ht hr => hnone₁ t ht ⟨?_, ?_⟩
          · rw [hused₁, if_pos ht]
          · rw [href₁]
            exact hr
        · exact fun s hs => by cases hs
        · exact fun s hs => by cases hs
        · exact fun _ s hs => by cases hs

/-- Two segments that have been used. -/
private def couple : Segq Bool where
  hd := some false
  tl := some true
  lnext s := if s then none else some true
  lprev s := if s then some false else none
  used _ := true
  ref _ := 1

theorem couple_holds : couple.Holds [false, true] := ⟨⟨rfl, rfl, rfl⟩, ⟨rfl, rfl, rfl⟩, by decide⟩

theorem segvictim_finds_couple : ∃ r q', segvictim couple (some (r, q')) ∧
    Chosen couple [false, true] r q' :=
  have ⟨r, q', hcall, _, hfound⟩ := segvictim_finds couple_holds
  ⟨r, q', hcall, hfound⟩

end NixMark.Seg
