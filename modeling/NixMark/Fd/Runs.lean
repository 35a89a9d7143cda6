import NixMark.Fd.Sys
import NixMark.Lib.Sums

/-!
# Tables of file descriptors over whole runs

* `Move`: what a step does to tables, references and the process that makes it.
* `Refs`: each reference of a channel is in a slot, in a call or elsewhere. `Inv`: who uses a table
  and who is taking it apart.
* `fd_tables`.
-/

namespace NixMark.Fd

open Lib Fgrp
open Function (update update_apply update_eq_self update_of_ne update_self)

variable {P G C : Type}

/-- The references that the call holds. -/
def Pc.chans : Pc G C → List C
  | .newfd c | .dupto c _ | .cclosing _ _ c | .ccloseq _ _ _ c => [c]
  | .newfd2 c₀ c₁ => [c₀, c₁]
  | .cclose cs _ => cs
  | _ => []

/-- Those that it is about to give up. -/
def Pc.closes : Pc G C → List C
  | .cclosing _ _ c | .ccloseq _ _ _ c => [c]
  | .cclose cs _ => cs
  | _ => []

/-- The table whose reference it is about to give up. -/
def Pc.drops : Pc G C → Option G
  | .closefgrp g => some g
  | _ => none

/-- The table that it takes apart. -/
def Pc.tears : Pc G C → Option G
  | .closing g _ | .cclosing g _ _ | .asleep g _ | .force g _ _ | .ccloseq g _ _ _ => some g
  | _ => none

/-- So many slots of that table are empty. -/
def Pc.done : Pc G C → Nat
  | .closing _ i => i
  | .cclosing _ i _ | .asleep _ i | .force _ i _ | .ccloseq _ i _ _ => i + 1
  | _ => 0

/-- It goes on with a table of so many slots at least. -/
def Pc.uses : Pc G C → Option Nat
  | .newfd _ | .newfd2 _ _ | .dupto _ _ | .exec _ | .cclose _ (some _) => some 0
  | .fdclose i | .execclose i => some (i + 1)
  | _ => none

variable [DecidableEq C]

/-- `k` holds the references that `k'` holds, besides those that `more` has over `less`. -/
def Passes (k k' : Pc G C) (more less : List C) : Prop :=
  ∀ c, k'.chans.count c + less.count c = k.chans.count c + more.count c

variable [DecidableEq P] [DecidableEq G] {s s' : Sys P G C} {p q : P} {g : G} {c : C} {k : Pc G C}

/-- What a step of `p` can do. -/
inductive Move (s : Sys P G C) (p : P) : Sys P G C → Prop
  /-- a section under the lock of its table -/
  | locked {g : G} {f f' : Fgrp C} {k : Pc G C} {gain loss : List C} : s.up p = some g →
      s.fgrp g = some f → (f.Ok → Change f f' gain loss) → Passes (s.pc p) k loss gain →
      (∀ c ∈ loss, c ∈ k.closes) → (s.pc p).drops = none → (s.pc p).tears = none →
      k.drops = none → k.tears = none → (∀ n, k.uses = some n → f.Ok → n ≤ f.nfd) →
      Move s p ((s.setfgrp g (some f')).goto p k)
  /-- references change hands, and the tables stay -/
  | hands (ref elsewhere : C → Nat) (cexec : C → Bool) {k : Pc G C} :
      (∀ c, ref c + (s.pc p).chans.count c + s.elsewhere c =
        s.ref c + k.chans.count c + elsewhere c) →
      k.drops = (s.pc p).drops → k.tears = (s.pc p).tears → k.done = (s.pc p).done →
      (∀ n, k.uses = some n → (∃ m, (s.pc p).uses = some m ∧ n ≤ m) ∨
        ∃ g f, s.up p = some g ∧ s.fgrp g = some f ∧ n ≤ f.nfd) →
      Move s p ({ s with ref := ref, elsewhere := elsewhere, cexec := cexec }.goto p k)
  /-- `decref` in `cclose` or `ccloseq` -/
  | decref {c : C} (elsewhere : C → Nat) {k : Pc G C} :
      (∀ b, k.chans.count b + elsewhere b + [c].count b = (s.pc p).chans.count b + s.elsewhere b) →
      k.drops = (s.pc p).drops → k.tears = (s.pc p).tears → k.done = (s.pc p).done →
      k.uses = (s.pc p).uses → Move s p (({ s with elsewhere := elsewhere }.decref c).goto p k)
  /-- the slot that it looks at is emptied -/
  | tear {g : G} {f : Fgrp C} {i : Nat} {k : Pc G C} : (s.pc p).tears = some g → s.fgrp g = some f →
      i ≤ f.maxfd → k.tears = some g → k.uses = none → Passes (s.pc p) k (f.slot i).toList [] →
      (∀ c, f.slot i = some c → c ∈ k.closes) → (∀ j < k.done, j < (s.pc p).done ∨ j = i) →
      Move s p ((s.setfgrp g (some (f.put i none))).goto p k)
  /-- the slot that it looks at is empty -/
  | skip {g : G} {f : Fgrp C} {i : Nat} {k : Pc G C} : (s.pc p).tears = some g → s.fgrp g = some f →
      f.slot i = none → k.tears = some g → k.uses = none → Passes (s.pc p) k [] [] →
      (∀ j < k.done, j < (s.pc p).done ∨ j = i) → Move s p (s.goto p k)
  | free {g : G} {f : Fgrp C} {i : Nat} : s.pc p = .closing g i → s.fgrp g = some f →
      f.maxfd < i → Move s p ((s.setfgrp g none).goto p .idle)
  | drop {g : G} {f : Fgrp C} : s.pc p = .closefgrp g → s.fgrp g = some f →
      Move s p ((s.setfgrp g (some { f with ref := f.ref - 1 })).goto p
        (if f.ref - 1 = 0 then .closing g 0 else .idle))
  /-- `q` gets another reference to the table of `p` -/
  | share {g : G} {f : Fgrp C} {q : P} : s.up p = some g → s.fgrp g = some f → s.up q = none →
      s.pc q = .idle → Move s p ((s.setfgrp g (some { f with ref := f.ref + 1 })).setup q (some g))
  /-- `q` gets a new table -/
  | fresh {g : G} {f : Fgrp C} {q : P} {ref : C → Nat} : s.fgrp g = none → f.Ok → f.ref = 1 →
      (∀ c, ref c = s.ref c + f.fd.count (some c)) → s.up q = none → s.pc q = .idle →
      Move s p (({ s with ref := ref }.setfgrp g (some f)).setup q (some g))
  /-- `p` gets a new table and is about to drop its old one -/
  | regroup {g g' : G} {f f' : Fgrp C} {ref : C → Nat} : s.up p = some g → s.fgrp g = some f →
      s.fgrp g' = none → f'.Ok → f'.ref = 1 → (∀ c, ref c = s.ref c + f'.fd.count (some c)) →
      s.pc p = .idle →
      Move s p ((({ s with ref := ref }.setfgrp g' (some f')).setup p (some g')).goto p (.closefgrp g))
  | exit {g : G} {f : Fgrp C} : s.up p = some g → s.fgrp g = some f → s.pc p = .idle →
      Move s p ((s.setup p none).goto p (.closefgrp g))

omit [DecidableEq C] [DecidableEq P] [DecidableEq G] in
theorem table_eq_some {g : G} {f : Fgrp C} (h : s.table p = some (g, f)) :
    s.up p = some g ∧ s.fgrp g = some f := by
  unfold Sys.table at h
  split at h
  · cases h
  · rename_i g' hg
    obtain ⟨f', hf, he⟩ := Option.map_eq_some_iff.mp h
    cases he
    exact ⟨hg, hf⟩

omit [DecidableEq C] in
theorem locked_eq_some {body : Fgrp C → Fgrp C × Pc G C} (h : s.locked p body = some s') :
    ∃ g f, s.up p = some g ∧ s.fgrp g = some f ∧
      s' = (s.setfgrp g (some (body f).1)).goto p (body f).2 := by
  obtain ⟨⟨g, f⟩, ht, he⟩ := Option.map_eq_some_iff.mp h
  obtain ⟨hg, hf⟩ := table_eq_some ht
  exact ⟨g, f, hg, hf, he.symm⟩

/-- A step that only moves on. -/
theorem Move.plain (hc : Passes (s.pc p) k [] []) (hd : k.drops = (s.pc p).drops)
    (ht : k.tears = (s.pc p).tears) (hn : k.done = (s.pc p).done)
    (hu : ∀ n, k.uses = some n → (∃ m, (s.pc p).uses = some m ∧ n ≤ m) ∨
      ∃ g f, s.up p = some g ∧ s.fgrp g = some f ∧ n ≤ f.nfd) : Move s p (s.goto p k) := by
  refine .hands s.ref s.elsewhere s.cexec (fun c => ?_) hd ht hn hu
  have hcc := hc c
  simp only [List.count_nil, Nat.add_zero] at hcc
  omega

/-- `decref` of a channel that the call holds -/
theorem Move.cclose (hc : Passes (s.pc p) k [] [c]) (hd : k.drops = (s.pc p).drops)
    (ht : k.tears = (s.pc p).tears) (hn : k.done = (s.pc p).done)
    (hu : k.uses = (s.pc p).uses) : Move s p ((s.decref c).goto p k) := by
  refine .decref s.elsewhere (fun b => ?_) hd ht hn hu
  have hb := hc b
  rw [List.count_nil, Nat.add_zero] at hb
  omega

omit [DecidableEq C] [DecidableEq G] in
theorem goto_self (s : Sys P G C) (p : P) : s.goto p (s.pc p) = s := by
  unfold Sys.goto
  rw [update_eq_self]

/-- An error of `fdtochan` -/
theorem Move.stay (s : Sys P G C) (p : P) : Move s p s := by
  have h : Move s p (s.goto p (s.pc p)) :=
    .plain (fun _ => rfl) rfl rfl rfl fun n hn => .inl ⟨n, hn, Nat.le_refl n⟩
  rwa [goto_self] at h

theorem go_cases {mem₀ mem₁ : Bool} (h : s.go p mem₀ mem₁ = some s') : Move s p s' := by
  unfold Sys.go at h
  cases hk : s.pc p with
  | idle =>
    rw [hk] at h
    cases h
  | newfd c =>
    rw [hk] at h
    obtain ⟨g, f, hg, hf, rfl⟩ := locked_eq_some h
    rcases hr : f.newfd c mem₀ with ⟨f', _ | fd⟩
    · exact .locked hg hf (fun hok => (newfd_spec hok hr).1) (fun b => by simp [hk, Pc.chans])
        (fun _ h => nomatch h) (by rw [hk]; rfl) (by rw [hk]; rfl) rfl rfl (fun _ h => nomatch h)
    · exact .locked hg hf (fun hok => (newfd_spec hok hr).1) (fun b => by simp [hk, Pc.chans])
        (fun _ h => nomatch h) (by rw [hk]; rfl) (by rw [hk]; rfl) rfl rfl (fun _ h => nomatch h)
  | newfd2 c₀ c₁ =>
    rw [hk] at h
    obtain ⟨g, f, hg, hf, rfl⟩ := locked_eq_some h
    rcases hr : f.newfd2 c₀ c₁ mem₀ mem₁ with ⟨f', _ | fd⟩
    · exact .locked hg hf (fun hok => (newfd2_spec hok hr).1) (fun b => by simp [hk, Pc.chans])
        (fun _ h => nomatch h) (by rw [hk]; rfl) (by rw [hk]; rfl) rfl rfl (fun _ h => nomatch h)
    · exact .locked hg hf (fun hok => (newfd2_spec hok hr).1) (fun b => by simp [hk, Pc.chans])
        (fun _ h => nomatch h) (by rw [hk]; rfl) (by rw [hk]; rfl) rfl rfl (fun _ h => nomatch h)
  | dupto oc nfd =>
    rw [hk] at h
    obtain ⟨g, f, hg, hf, rfl⟩ := locked_eq_some h
    rcases hr : f.dupto oc nfd mem₀ with ⟨f', _ | nc⟩
    · exact .locked hg hf (fun hok => dupto_spec hok hr) (fun b => by simp [hk, Pc.chans])
        (fun _ h => nomatch h) (by rw [hk]; rfl) (by rw [hk]; rfl) rfl rfl (fun _ h => nomatch h)
    · exact .locked hg hf (fun hok => dupto_spec hok hr)
        (fun b => by simp [hk, Pc.chans, Nat.add_comm])
        (fun _ h => h) (by rw [hk]; rfl) (by rw [hk]; rfl) rfl rfl (fun _ h => nomatch h)
  | fdclose fd =>
    rw [hk] at h
    obtain ⟨g, f, hg, hf, rfl⟩ := locked_eq_some h
    exact .locked hg hf (fun hok => fdclose_spec hok) (fun b => by simp [hk, Pc.chans])
      (fun _ h => h) (by rw [hk]; rfl) (by rw [hk]; rfl) rfl rfl (fun _ h => nomatch h)
  | exec i =>
    rw [hk] at h
    obtain ⟨g, f, hg, hf, rfl⟩ := locked_eq_some h
    dsimp only
    split
    · rename_i hi
      refine .locked hg hf (fun _ => .refl f) (fun b => by simp [hk, Pc.chans])
        (fun _ h => nomatch h) (by rw [hk]; rfl) (by rw [hk]; rfl) rfl rfl fun n hn hok => ?_
      cases hn
      exact Nat.lt_of_le_of_lt hi hok.lt
    · exact .locked hg hf (fun _ => .refl f) (fun b => by simp [hk, Pc.chans])
        (fun _ h => nomatch h) (by rw [hk]; rfl) (by rw [hk]; rfl) rfl rfl (fun _ h => nomatch h)
  | execclose i =>
    rw [hk] at h
    obtain ⟨g, f, hg, hf, rfl⟩ := locked_eq_some h
    refine .locked hg hf (fun hok => fdclose_spec hok) (fun b => by simp [hk, Pc.chans])
      (fun _ h => h) (by rw [hk]; rfl) (by rw [hk]; rfl) rfl rfl fun n hn _ => ?_
    cases hn
    exact Nat.zero_le _
  | cclose cs next =>
    rw [hk] at h
    cases cs with
    | nil =>
      cases next with
      | none =>
        cases h
        exact .plain (fun b => by simp [hk, Pc.chans]) (by rw [hk]; rfl) (by rw [hk]; rfl)
          (by rw [hk]; rfl) (fun _ h => nomatch h)
      | some i =>
        cases h
        refine .plain (fun b => by simp [hk, Pc.chans]) (by rw [hk]; rfl) (by rw [hk]; rfl)
          (by rw [hk]; rfl) fun n hn => .inl ⟨0, by rw [hk]; rfl, ?_⟩
        cases hn
        exact Nat.le_refl 0
    | cons c cs =>
      cases h
      refine .cclose (fun b => ?_) (by rw [hk]; rfl) (by rw [hk]; rfl) (by rw [hk]; rfl) ?_
      · rw [hk]
        exact (List.count_append (a := b)).symm.trans ((List.perm_append_singleton c cs).count_eq b)
      · rw [hk]
        cases next <;> rfl
  | closefgrp g =>
    rw [hk] at h
    obtain ⟨f, hf, rfl⟩ := Option.map_eq_some_iff.mp h
    exact .drop hk hf
  | closing g i =>
    rw [hk] at h
    obtain ⟨f, hf, rfl⟩ := Option.map_eq_some_iff.mp h
    split
    · rename_i hi
      cases hs : f.slot i with
      | some c =>
        exact .tear (by rw [hk]; rfl) hf hi rfl rfl (fun b => by simp [hk, hs, Pc.chans])
          (fun b hb => by rw [hs] at hb; cases hb; exact List.mem_singleton_self _)
          (fun j hj => by rw [hk]; exact Nat.lt_succ_iff_lt_or_eq.mp hj)
      | none =>
        exact .skip (by rw [hk]; rfl) hf hs rfl rfl (fun b => by simp [hk, Pc.chans])
          (fun j hj => by rw [hk]; exact Nat.lt_succ_iff_lt_or_eq.mp hj)
    · exact .free hk hf (Nat.not_le.mp ‹_›)
  | cclosing g i c =>
    rw [hk] at h
    cases h
    exact .cclose (fun b => by simp [hk, Pc.chans]) (by rw [hk]; rfl) (by rw [hk]; rfl)
      (by rw [hk]; rfl) (by rw [hk]; rfl)
  | asleep g i =>
    rw [hk] at h
    cases h
    exact .plain (fun b => by simp [hk, Pc.chans]) (by rw [hk]; rfl) (by rw [hk]; rfl)
      (by rw [hk]; rfl) (fun _ h => nomatch h)
  | force g i j =>
    rw [hk] at h
    obtain ⟨f, hf, rfl⟩ := Option.map_eq_some_iff.mp h
    split
    · rename_i hj
      cases hs : f.slot j with
      | some c =>
        exact .tear (by rw [hk]; rfl) hf hj rfl rfl (fun b => by simp [hk, hs, Pc.chans])
          (fun b hb => by rw [hs] at hb; cases hb; exact List.mem_singleton_self _)
          (fun x hx => by rw [hk]; exact .inl hx)
      | none =>
        exact .skip (by rw [hk]; rfl) hf hs rfl rfl (fun b => by simp [hk, Pc.chans])
          (fun x hx => by rw [hk]; exact .inl hx)
    · exact .plain (fun b => by simp [hk, Pc.chans]) (by rw [hk]; rfl) (by rw [hk]; rfl)
        (by rw [hk]; rfl) (fun _ h => nomatch h)
  | ccloseq g i j c =>
    rw [hk] at h
    cases h
    exact .cclose (fun b => by simp [hk, Pc.chans]) (by rw [hk]; rfl) (by rw [hk]; rfl)
      (by rw [hk]; rfl) (by rw [hk]; rfl)

omit [DecidableEq P] [DecidableEq G] in
theorem take_eq_some (h : s.take c = some s') : ∃ elsewhere, s' = { s with elsewhere := elsewhere } ∧
    ∀ b, elsewhere b + [c].count b = s.elsewhere b := by
  obtain ⟨hc, h⟩ := Option.ite_none_left_eq_some.mp h
  cases h
  refine ⟨_, rfl, fun b => ?_⟩
  rw [update_apply]
  by_cases hb : b = c
  · subst hb
    rw [if_pos rfl, List.count_singleton_self]
    omega
  · rw [if_neg hb, List.count_singleton, if_neg (by simpa using Ne.symm hb)]
    rfl

theorem update_succ (n : C → Nat) (c b : C) : update n c (n c + 1) b = n b + [c].count b := by
  rw [update_apply]
  by_cases hb : b = c
  · rw [if_pos hb, hb, List.count_singleton_self]
  · rw [if_neg hb, List.count_singleton, if_neg (by simpa using Ne.symm hb)]
    rfl

omit [DecidableEq P] [DecidableEq G] in
theorem incref_ref (s : Sys P G C) (c b : C) : (s.incref c).ref b = s.ref b + [c].count b :=
  update_succ s.ref c b

theorem copy_cases {g g' : G} {f : Fgrp C} {how : Copy} (h : s.copy g f g' q how = some s') :
    (how = .share ∧ s' = (s.setfgrp g (some { f with ref := f.ref + 1 })).setup q (some g)) ∨
      ∃ f' ref, s.fgrp g' = none ∧ (f.Ok → f'.Ok) ∧ f'.ref = 1 ∧
        (∀ c, ref c = s.ref c + f'.fd.count (some c)) ∧
        s' = ({ s with ref := ref }.setfgrp g' (some f')).setup q (some g') := by
  cases how with
  | share =>
    cases h
    exact .inl ⟨rfl, rfl⟩
  | dup mem =>
    unfold Sys.copy at h
    simp only at h
    split at h
    · rename_i f' hg hf'
      cases h
      have hspec := fun hok => dupfgrp_spec hok hf'
      refine .inr ⟨f', _, hg, fun hok => (hspec hok).1, ?_, fun _ => rfl, rfl⟩
      unfold dupfgrp at hf'
      split at hf' <;> cases hf'
      rfl
    · cases h
  | clean =>
    unfold Sys.copy at h
    simp only at h
    split at h
    · rename_i hg
      cases h
      refine .inr ⟨.empty, s.ref, hg, fun _ => (empty_spec (C := C)).1, rfl, fun c => ?_, rfl⟩
      rw [(empty_spec (C := C)).2 c, Nat.add_zero]
    · cases h

theorem call_cases {act : Act P G C} {g : G} {f : Fgrp C} (hi : s.pc p = .idle) (hg : s.up p = some g)
    (hf : s.fgrp g = some f) (hok : f.Ok) (h : s.call p act = some s') : Move s p s' := by
  have htable : s.table p = some (g, f) := by
    unfold Sys.table
    rw [hg]
    exact Option.map_eq_some_iff.mpr ⟨f, hf, rfl⟩
  have huses : ∀ n, some 0 = some n → ∃ g f, s.up p = some g ∧ s.fgrp g = some f ∧ n ≤ f.nfd := by
    rintro n ⟨⟩
    exact ⟨g, f, hg, hf, Nat.zero_le _⟩
  cases act with
  | newfd c =>
    obtain ⟨s₁, ht, rfl⟩ := Option.map_eq_some_iff.mp h
    obtain ⟨elsewhere, rfl, hsum⟩ := take_eq_some ht
    refine .hands _ _ _ (fun b => ?_) (by rw [hi]; rfl) (by rw [hi]; rfl) (by rw [hi]; rfl)
      fun n hn => .inr (huses n hn)
    have hb := hsum b
    simp only [hi, Pc.chans, List.count_nil]
    omega
  | newfd2 c₀ c₁ =>
    obtain ⟨s₂, ht, rfl⟩ := Option.map_eq_some_iff.mp h
    obtain ⟨s₁, ht₀, ht₁⟩ := Option.bind_eq_some_iff.mp ht
    obtain ⟨e₀, rfl, hsum₀⟩ := take_eq_some ht₀
    obtain ⟨e₁, rfl, hsum₁⟩ := take_eq_some ht₁
    refine .hands _ _ _ (fun b => ?_) (by rw [hi]; rfl) (by rw [hi]; rfl) (by rw [hi]; rfl)
      fun n hn => .inr (huses n hn)
    have hb₀ := hsum₀ b
    have hb₁ := hsum₁ b
    have htwo : [c₀, c₁].count b = [c₀].count b + [c₁].count b := by
      rw [← List.count_append]
      rfl
    simp only [hi, Pc.chans, List.count_nil, htwo]
    simp only at hb₁
    omega
  | dup ofd nfd =>
    unfold Sys.call at h
    simp only [htable, Option.map_some, Option.some.injEq] at h
    subst h
    split
    · exact .stay s p
    · rename_i oc hoc
      split
      · refine .hands _ _ _ (fun b => ?_) (by rw [hi]; rfl) (by rw [hi]; rfl) (by rw [hi]; rfl)
          fun n hn => .inr (huses n hn)
        change (s.incref oc).ref b + _ + s.elsewhere b = s.ref b + _ + s.elsewhere b
        rw [incref_ref, hi]
        exact congrArg (· + s.elsewhere b) rfl
      · refine .hands _ _ _ (fun b => ?_) (by rw [hi]; rfl) (by rw [hi]; rfl) (by rw [hi]; rfl)
          fun n hn => .inr (huses n hn)
        change (s.incref oc).ref b + _ + s.elsewhere b = s.ref b + _ + s.elsewhere b
        rw [incref_ref, hi]
        exact congrArg (· + s.elsewhere b) rfl
  | close fd =>
    unfold Sys.call at h
    simp only [htable, Option.map_some, Option.some.injEq] at h
    subst h
    split
    · exact .stay s p
    · rename_i c hc
      refine .plain (fun b => by simp [hi, Pc.chans]) (by rw [hi]; rfl) (by rw [hi]; rfl)
        (by rw [hi]; rfl) fun n hn => .inr ⟨g, f, hg, hf, ?_⟩
      cases hn
      unfold fdtochan at hc
      obtain ⟨-, hslot⟩ := Option.ite_none_left_eq_some.mp hc
      exact slot_lt hslot
  | exec =>
    cases h
    exact .plain (fun b => by simp [hi, Pc.chans]) (by rw [hi]; rfl) (by rw [hi]; rfl)
      (by rw [hi]; rfl) fun n hn => .inr (huses n hn)
  | rfork child g' how =>
    unfold Sys.call at h
    simp only [htable, Option.bind_some] at h
    split at h
    · rename_i hup hpc
      rcases copy_cases h with ⟨-, rfl⟩ | ⟨f', ref, hg', hok', href, hcount, rfl⟩
      · exact .share hg hf hup hpc
      · exact .fresh hg' (hok' hok) href hcount hup hpc
    · cases h
  | regroup g' how =>
    unfold Sys.call at h
    simp only [htable, Option.bind_some] at h
    split at h
    · cases h
    · rename_i hne
      obtain ⟨s₁, hcopy, rfl⟩ := Option.map_eq_some_iff.mp h
      rcases copy_cases hcopy with ⟨hshare, -⟩ | ⟨f', ref, hg', hok', href, hcount, rfl⟩
      · exact absurd hshare hne
      · exact .regroup hg hf hg' (hok' hok) href hcount hi
  | exit =>
    unfold Sys.call at h
    simp only [htable, Option.map_some, Option.some.injEq] at h
    subst h
    exact .exit hg hf hi
  | _ => cases h

theorem act_cases {act : Act P G C} (hlive : ∀ g, s.up p = some g → ∃ f, s.fgrp g = some f ∧ f.Ok)
    (h : s.act p act = some s') : Move s p s' := by
  cases act with
  | get c cexec =>
    cases h
    have hmove : Move s p ((s.get c cexec).goto p (s.pc p)) := by
      refine .hands _ _ _ (fun b => ?_) rfl rfl rfl fun n hn => .inl ⟨n, hn, Nat.le_refl n⟩
      have helse : update s.elsewhere c (s.elsewhere c + 1) b = s.elsewhere b + [c].count b :=
        update_succ s.elsewhere c b
      have href := incref_ref s c b
      change (s.incref c).ref b + _ + s.elsewhere b =
        s.ref b + _ + update s.elsewhere c (s.elsewhere c + 1) b
      omega
    have hself : (s.get c cexec).goto p (s.pc p) = s.get c cexec := goto_self _ p
    rwa [hself] at hmove
  | put c =>
    obtain ⟨s₁, ht, rfl⟩ := Option.map_eq_some_iff.mp h
    obtain ⟨elsewhere, rfl, hsum⟩ := take_eq_some ht
    have hmove : Move s p (({ s with elsewhere := elsewhere }.decref c).goto p (s.pc p)) :=
      .decref elsewhere (fun b => by have hb := hsum b; omega) rfl rfl rfl rfl
    have hself : ({ s with elsewhere := elsewhere }.decref c).goto p (s.pc p) =
        { s with elsewhere := elsewhere }.decref c := goto_self _ p
    rwa [hself] at hmove
  | go mem₀ mem₁ => exact go_cases h
  | kill =>
    unfold Sys.act at h
    simp only at h
    split at h
    · rename_i g i hk
      cases h
      exact .plain (fun b => by simp [hk, Pc.chans]) (by rw [hk]; rfl) (by rw [hk]; rfl)
        (by rw [hk]; rfl) (fun _ h => nomatch h)
    · cases h
  | _ =>
    unfold Sys.act at h
    simp only at h
    split at h
    · rename_i g hi hg
      obtain ⟨f, hf, hok⟩ := hlive g hg
      exact call_cases hi hg hf hok h
    · cases h

/-! ## The invariant -/

section

variable [Fintype P] [Fintype G]

/-- The slots that hold the channel. -/
def slots (s : Sys P G C) (c : C) : Nat := ∑ g, (s.fgrp g).elim 0 fun f => f.fd.count (some c)

/-- The references that calls hold. -/
def held (s : Sys P G C) (c : C) : Nat := ∑ p, (s.pc p).chans.count c

/-- The processes that have the table or have yet to drop it. -/
def users (s : Sys P G C) (g : G) : Nat :=
  (∑ p, if s.up p = some g then 1 else 0) + ∑ p, if (s.pc p).drops = some g then 1 else 0

/-- Who uses a table, and who takes it apart. -/
structure Tables (s : Sys P G C) : Prop where
  ok : ∀ g f, s.fgrp g = some f → f.Ok
  users : ∀ g f, s.fgrp g = some f → f.ref = users s g
  live : ∀ p g, s.up p = some g ∨ (s.pc p).drops = some g ∨ (s.pc p).tears = some g →
    ∃ f, s.fgrp g = some f
  dying : ∀ p g f, (s.pc p).tears = some g → s.fgrp g = some f →
    f.ref = 0 ∧ ∀ i < (s.pc p).done, f.slot i = none
  one : ∀ p q g, (s.pc p).tears = some g → (s.pc q).tears = some g → p = q
  uses : ∀ p n, (s.pc p).uses = some n → ∃ g f, s.up p = some g ∧ s.fgrp g = some f ∧ n ≤ f.nfd

/-- Each reference is in a slot, in a call or elsewhere. -/
def Refs (s : Sys P G C) : Prop := ∀ c, s.ref c = slots s c + held s c + s.elsewhere c

omit [DecidableEq C] [DecidableEq G] [Fintype G] [Fintype P] in
@[simp] theorem goto_pc : (s.goto p k).pc q = if q = p then k else s.pc q :=
  update_apply ..

omit [DecidableEq C] [DecidableEq P] [Fintype G] [Fintype P] in
@[simp] theorem setfgrp_fgrp {f : Option (Fgrp C)} {g' : G} :
    (s.setfgrp g f).fgrp g' = if g' = g then f else s.fgrp g' := update_apply ..

omit [DecidableEq C] [DecidableEq G] [Fintype G] [Fintype P] in
@[simp] theorem setup_up {o : Option G} : (s.setup p o).up q = if q = p then o else s.up q :=
  update_apply ..

omit [DecidableEq P] [Fintype P] in
theorem slots_setfgrp (f : Option (Fgrp C)) :
    slots (s.setfgrp g f) c + ((s.fgrp g).elim 0 fun f => f.fd.count (some c)) =
      slots s c + f.elim 0 fun f => f.fd.count (some c) :=
  sum_update (fun o : Option (Fgrp C) => o.elim 0 fun f => f.fd.count (some c)) s.fgrp g f

omit [DecidableEq G] [Fintype G] in
theorem held_goto : held (s.goto p k) c + (s.pc p).chans.count c = held s c + k.chans.count c :=
  sum_update (fun k : Pc G C => k.chans.count c) s.pc p k

section
omit [DecidableEq C] [Fintype G]

theorem users_goto : users (s.goto p k) g + (if (s.pc p).drops = some g then 1 else 0) =
    users s g + if k.drops = some g then 1 else 0 := by
  have h := sum_update (fun k : Pc G C => if k.drops = some g then 1 else 0) s.pc p k
  unfold users
  change (_ + ∑ q, if ((update s.pc p k) q).drops = some g then 1 else 0) + _ = _
  rw [Nat.add_assoc, h, Nat.add_assoc]
  rfl

theorem users_setup (o : Option G) : users (s.setup p o) g + (if s.up p = some g then 1 else 0) =
    users s g + if o = some g then 1 else 0 := by
  have h := sum_update (fun o : Option G => if o = some g then 1 else 0) s.up p o
  unfold users
  change ((∑ q, if (update s.up p o) q = some g then 1 else 0) + _) + _ = _
  rw [Nat.add_right_comm, h, Nat.add_right_comm]
  rfl

end

omit [DecidableEq C] [DecidableEq P] [Fintype G] in
theorem users_pos (h : s.up p = some g ∨ (s.pc p).drops = some g) : 0 < users s g := by
  unfold users
  rcases h with h | h
  · have hle := Finset.single_le_sum (f := fun q => if s.up q = some g then 1 else 0)
      (fun _ _ => Nat.zero_le _) (Finset.mem_univ p)
    simp only [h, if_true] at hle
    omega
  · have hle := Finset.single_le_sum (f := fun q => if (s.pc q).drops = some g then 1 else 0)
      (fun _ _ => Nat.zero_le _) (Finset.mem_univ p)
    simp only [h, if_true] at hle
    omega

variable {f f' : Fgrp C}

omit [DecidableEq C] [Fintype G] [DecidableEq P] in
/-- Nobody takes a table apart that somebody uses. -/
theorem Tables.busy (h : Tables s) (hp : s.up p = some g ∨ (s.pc p).drops = some g) :
    (s.pc q).tears ≠ some g := by
  intro hq
  obtain ⟨f, hf⟩ := h.live q g (.inr (.inr hq))
  have hpos := users_pos hp
  have href := h.users g f hf
  have hzero := (h.dying q g f hq hf).1
  omega

omit [DecidableEq C] [Fintype G] in
/-- A step that leaves the tables alone. -/
theorem Tables.goto (h : Tables s) (hd : k.drops = (s.pc p).drops) (ht : k.tears = (s.pc p).tears)
    (hn : ∀ g f, (s.pc p).tears = some g → s.fgrp g = some f → ∀ i < k.done, f.slot i = none)
    (hu : ∀ n, k.uses = some n → ∃ g f, s.up p = some g ∧ s.fgrp g = some f ∧ n ≤ f.nfd) :
    Tables (s.goto p k) where
  ok := h.ok
  users g f hf := by
    have hg := users_goto (s := s) (p := p) (k := k) (g := g)
    rw [hd] at hg
    exact (h.users g f hf).trans (Nat.add_right_cancel hg).symm
  live q g hq := by
    refine h.live q g ?_
    rw [goto_pc] at hq
    split at hq
    · rename_i hqp
      rwa [hqp, ← hd, ← ht, ← hqp]
    · exact hq
  dying q g f hq hf := by
    rw [goto_pc] at hq ⊢
    split at hq
    · rename_i hqp
      rw [ht] at hq
      rw [if_pos hqp]
      exact ⟨(h.dying p g f hq hf).1, hn g f hq hf⟩
    · rename_i hqp
      rw [if_neg hqp]
      exact h.dying q g f hq hf
  one q r g hq hr := by
    have htears : ∀ x, ((s.goto p k).pc x).tears = (s.pc x).tears := by
      intro x
      rw [goto_pc]
      split
      · rename_i hx
        rw [hx, ht]
      · rfl
    rw [htears] at hq hr
    exact h.one q r g hq hr
  uses q n hq := by
    rw [goto_pc] at hq
    split at hq
    · rename_i hqp
      rw [hqp]
      exact hu n hq
    · exact h.uses q n hq

omit [DecidableEq C] [Fintype G] [DecidableEq P] in
/-- A table that is changed keeps its users. -/
theorem Tables.setfgrp (h : Tables s) (hf : s.fgrp g = some f) (hok : f'.Ok) (href : f'.ref = f.ref)
    (hnfd : f.nfd ≤ f'.nfd)
    (hs : ∀ p i, (s.pc p).tears = some g → f.slot i = none → f'.slot i = none) :
    Tables (s.setfgrp g (some f')) where
  ok g' x hx := by
    rw [setfgrp_fgrp] at hx
    split at hx
    · cases hx
      exact hok
    · exact h.ok g' x hx
  users g' x hx := by
    rw [setfgrp_fgrp] at hx
    split at hx
    · rename_i hg
      cases hx
      rw [href, hg]
      exact h.users g f hf
    · exact h.users g' x hx
  live q g' hq := by
    rw [setfgrp_fgrp]
    split
    · exact ⟨f', rfl⟩
    · exact h.live q g' hq
  dying q g' x hq hx := by
    rw [setfgrp_fgrp] at hx
    split at hx
    · rename_i hg
      cases hx
      subst hg
      obtain ⟨hzero, hdone⟩ := h.dying q g' f hq hf
      exact ⟨href.trans hzero, fun i hi => hs q i hq (hdone i hi)⟩
    · exact h.dying q g' x hq hx
  one := h.one
  uses q n hq := by
    obtain ⟨g', x, hup, hx, hle⟩ := h.uses q n hq
    by_cases hg : g' = g
    · subst hg
      rw [hf] at hx
      cases hx
      exact ⟨g', f', hup, by rw [setfgrp_fgrp, if_pos rfl], Nat.le_trans hle hnfd⟩
    · exact ⟨g', x, hup, by rw [setfgrp_fgrp, if_neg hg, hx], hle⟩

omit [Fintype G] [DecidableEq P] [DecidableEq C] in
/-- References do not matter for it. -/
theorem Tables.frame (h : Tables s) (ref elsewhere : C → Nat) (cexec : C → Bool) :
    Tables { s with ref := ref, elsewhere := elsewhere, cexec := cexec } :=
  ⟨h.ok, h.users, h.live, h.dying, h.one, h.uses⟩

omit [DecidableEq C] [Fintype G] [DecidableEq P] in
theorem Tables.users_zero (h : Tables s) (hg : s.fgrp g = none) : Fd.users s g = 0 := by
  have hno : ∀ p, s.up p ≠ some g ∧ (s.pc p).drops ≠ some g := by
    refine fun p => ⟨fun hp => ?_, fun hp => ?_⟩
    · obtain ⟨f, hf⟩ := h.live p g (.inl hp)
      rw [hg] at hf
      cases hf
    · obtain ⟨f, hf⟩ := h.live p g (.inr (.inl hp))
      rw [hg] at hf
      cases hf
  unfold Fd.users
  rw [Finset.sum_eq_zero fun p _ => if_neg (hno p).1, Finset.sum_eq_zero fun p _ => if_neg (hno p).2,
    Nat.add_zero]

section
omit [DecidableEq C] [Fintype G]

/-- A process without a table gets one. -/
theorem Tables.join (h : Tables s) (hq : s.up q = none) (hok : f'.Ok)
    (href : f'.ref = Fd.users s g + 1) (hno : ∀ p, (s.pc p).tears ≠ some g)
    (hnfd : ∀ f, s.fgrp g = some f → f.nfd ≤ f'.nfd) :
    Tables ((s.setfgrp g (some f')).setup q (some g)) where
  ok g' x hx := by
    rw [show ((s.setfgrp g (some f')).setup q (some g)).fgrp = (s.setfgrp g (some f')).fgrp from rfl,
      setfgrp_fgrp] at hx
    split at hx
    · cases hx
      exact hok
    · exact h.ok g' x hx
  users g' x hx := by
    have hsum : Fd.users (s.setup q (some g)) g' + (if s.up q = some g' then 1 else 0) =
        Fd.users s g' + if some g = some g' then 1 else 0 := users_setup (some g)
    rw [show ((s.setfgrp g (some f')).setup q (some g)).fgrp = (s.setfgrp g (some f')).fgrp from rfl,
      setfgrp_fgrp] at hx
    change x.ref = Fd.users (s.setup q (some g)) g'
    simp only [hq, reduceCtorEq, if_false, Nat.add_zero, Option.some.injEq] at hsum
    split at hx
    · rename_i hg
      cases hx
      rw [hsum, href, hg, if_pos rfl]
    · rename_i hg
      rw [hsum, if_neg (Ne.symm hg)]
      exact h.users g' x hx
  live p g' hp := by
    rw [show ((s.setfgrp g (some f')).setup q (some g)).fgrp = (s.setfgrp g (some f')).fgrp from rfl,
      setfgrp_fgrp]
    split
    · exact ⟨f', rfl⟩
    · rename_i hg
      refine h.live p g' ?_
      rw [setup_up] at hp
      split at hp
      · rcases hp with hp | hp
        · cases hp
          exact absurd rfl hg
        · exact .inr hp
      · exact hp
  dying p g' x hp hx := by
    rw [show ((s.setfgrp g (some f')).setup q (some g)).fgrp = (s.setfgrp g (some f')).fgrp from rfl,
      setfgrp_fgrp] at hx
    split at hx
    · rename_i hg
      exact absurd (hg ▸ hp) (hno p)
    · exact h.dying p g' x hp hx
  one := h.one
  uses p n hp := by
    obtain ⟨g', x, hup, hx, hle⟩ := h.uses p n hp
    have hpq : p ≠ q := by
      rintro rfl
      rw [hq] at hup
      cases hup
    rw [setup_up, if_neg hpq]
    by_cases hg : g' = g
    · subst hg
      exact ⟨g', f', hup, setfgrp_fgrp.trans (if_pos rfl), Nat.le_trans hle (hnfd x hx)⟩
    · exact ⟨g', x, hup, setfgrp_fgrp.trans ((if_neg hg).trans hx), hle⟩

/-- A process is about to drop its table. -/
theorem Tables.leave (h : Tables s) (hup : s.up p = some g) (hp : s.pc p = .idle) :
    Tables ((s.setup p none).goto p (.closefgrp g)) where
  ok := h.ok
  users g' f hf := by
    have hset := users_setup (s := s) (p := p) (g := g') none
    have hgoto := users_goto (s := s.setup p none) (p := p) (k := .closefgrp g) (g := g')
    rw [show (s.setup p none).pc p = s.pc p from rfl, hp] at hgoto
    rw [hup] at hset
    rw [h.users g' f hf]
    by_cases hg : g = g'
    · subst hg
      simp [Pc.drops] at hset hgoto
      omega
    · simp [Pc.drops, hg] at hset hgoto
      omega
  live q g' hq := by
    rw [goto_pc] at hq
    by_cases hqp : q = p
    · rw [if_pos hqp] at hq
      rcases hq with hq | hq | hq
      · rw [show ((s.setup p none).goto p (.closefgrp g)).up q = _ from setup_up, if_pos hqp] at hq
        cases hq
      · cases hq
        exact h.live p g (.inl hup)
      · cases hq
    · rw [if_neg hqp, show ((s.setup p none).goto p (.closefgrp g)).up q = _ from setup_up,
        if_neg hqp] at hq
      exact h.live q g' hq
  dying q g' f hq hf := by
    rw [goto_pc] at hq ⊢
    split at hq
    · cases hq
    · rename_i hqp
      rw [if_neg hqp]
      exact h.dying q g' f hq hf
  one q r g' hq hr := by
    rw [goto_pc] at hq hr
    split at hq
    · cases hq
    · split at hr
      · cases hr
      · exact h.one q r g' hq hr
  uses q n hq := by
    rw [goto_pc] at hq
    split at hq
    · cases hq
    · rename_i hqp
      obtain ⟨g', f, hup', hf, hle⟩ := h.uses q n hq
      exact ⟨g', f, setup_up.trans ((if_neg hqp).trans hup'), hf, hle⟩

/-- `decref(f)` in `closefgrp`; who drops the last reference takes the table apart. -/
theorem Tables.drop (h : Tables s) (hp : s.pc p = .closefgrp g) (hf : s.fgrp g = some f) :
    Tables ((s.setfgrp g (some { f with ref := f.ref - 1 })).goto p
      (if f.ref - 1 = 0 then .closing g 0 else .idle)) := by
  have hpos : 0 < Fd.users s g := users_pos (p := p) (.inr (by rw [hp]; rfl))
  have hbusy : ∀ q, (s.pc q).tears ≠ some g := fun q =>
    h.busy (p := p) (q := q) (.inr (by rw [hp]; rfl))
  have href := h.users g f hf
  have hk : (if f.ref - 1 = 0 then Pc.closing g 0 else .idle : Pc G C).drops = none ∧
      (if f.ref - 1 = 0 then Pc.closing g 0 else .idle : Pc G C).uses = none ∧
      (if f.ref - 1 = 0 then Pc.closing g 0 else .idle : Pc G C).done = 0 ∧
      (∀ g', (if f.ref - 1 = 0 then Pc.closing g 0 else .idle : Pc G C).tears = some g' →
        g' = g ∧ f.ref - 1 = 0) := by
    split
    · rename_i hz
      exact ⟨rfl, rfl, rfl, fun g' hg' => ⟨(Option.some.inj hg').symm, hz⟩⟩
    · exact ⟨rfl, rfl, rfl, fun g' hg' => nomatch hg'⟩
  generalize (if f.ref - 1 = 0 then Pc.closing g 0 else .idle : Pc G C) = k at hk
  obtain ⟨hdrops, huses, hdone, htears⟩ := hk
  refine ⟨fun g' x hx => ?_, fun g' x hx => ?_, fun q g' hq => ?_, fun q g' x hq hx => ?_,
    fun q r g' hq hr => ?_, fun q n hq => ?_⟩
  · rw [show (((s.setfgrp g (some { f with ref := f.ref - 1 })).goto p k).fgrp g') = _ from
      setfgrp_fgrp] at hx
    split at hx
    · cases hx
      exact ⟨(h.ok g f hf).lt, (h.ok g f hf).high⟩
    · exact h.ok g' x hx
  · have hsum : Fd.users (s.goto p k) g' + (if (s.pc p).drops = some g' then 1 else 0) =
        Fd.users s g' + if k.drops = some g' then 1 else 0 := users_goto
    rw [hp, hdrops] at hsum
    change x.ref = Fd.users (s.goto p k) g'
    simp only [Pc.drops, Option.some.injEq, reduceCtorEq, if_false, Nat.add_zero] at hsum
    rw [show (((s.setfgrp g (some { f with ref := f.ref - 1 })).goto p k).fgrp g') = _ from
      setfgrp_fgrp] at hx
    split at hx
    · rename_i hg
      cases hx
      rw [hg, if_pos rfl] at hsum
      rw [hg]
      change f.ref - 1 = _
      omega
    · rename_i hg
      rw [if_neg (Ne.symm hg)] at hsum
      rw [h.users g' x hx]
      exact hsum.symm
  · have hlive : ∃ f, s.fgrp g' = some f := by
      rw [goto_pc] at hq
      split at hq
      · rename_i hqp
        rcases hq with hq | hq | hq
        · exact h.live q g' (.inl hq)
        · rw [hdrops] at hq
          cases hq
        · exact ⟨f, (htears g' hq).1 ▸ hf⟩
      · exact h.live q g' hq
    rw [show (((s.setfgrp g (some { f with ref := f.ref - 1 })).goto p k).fgrp g') = _ from
      setfgrp_fgrp]
    split
    · exact ⟨_, rfl⟩
    · exact hlive
  · rw [goto_pc] at hq ⊢
    rw [show (((s.setfgrp g (some { f with ref := f.ref - 1 })).goto p k).fgrp g') = _ from
      setfgrp_fgrp] at hx
    split at hq
    · rename_i hqp
      obtain ⟨hg, hz⟩ := htears g' hq
      rw [if_pos hg] at hx
      cases hx
      rw [if_pos hqp, hdone]
      exact ⟨hz, fun i hi => absurd hi (Nat.not_lt_zero i)⟩
    · rename_i hqp
      have hg : g' ≠ g := fun he => hbusy q (he ▸ hq)
      rw [if_neg hg] at hx
      rw [if_neg hqp]
      exact h.dying q g' x hq hx
  · rw [goto_pc] at hq hr
    split at hq
    · rename_i hqp
      split at hr
      · rename_i hrp
        exact hqp.trans hrp.symm
      · exact absurd ((htears g' hq).1 ▸ hr) (hbusy r)
    · split at hr
      · exact absurd ((htears g' hr).1 ▸ hq) (hbusy q)
      · exact h.one q r g' hq hr
  · rw [goto_pc] at hq
    split at hq
    · rw [huses] at hq
      cases hq
    · obtain ⟨g', x, hup, hx, hle⟩ := h.uses q n hq
      by_cases hg : g' = g
      · subst hg
        rw [hf] at hx
        cases hx
        exact ⟨g', _, hup, setfgrp_fgrp.trans (if_pos rfl), hle⟩
      · exact ⟨g', x, hup, setfgrp_fgrp.trans ((if_neg hg).trans hx), hle⟩

/-- The table has been taken apart. -/
theorem Tables.free (h : Tables s) {i : Nat} (hp : s.pc p = .closing g i) (hf : s.fgrp g = some f) :
    Tables ((s.setfgrp g none).goto p .idle) := by
  have hzero : Fd.users s g = 0 := by
    rw [← h.users g f hf]
    exact (h.dying p g f (by rw [hp]; rfl) hf).1
  have hno : ∀ q, s.up q ≠ some g ∧ (s.pc q).drops ≠ some g := fun q =>
    ⟨fun hq => absurd hzero (Nat.ne_of_gt (users_pos (.inl hq))),
      fun hq => absurd hzero (Nat.ne_of_gt (users_pos (.inr hq)))⟩
  have htears : ∀ q g', (((s.setfgrp g none).goto p .idle).pc q).tears = some g' →
      q ≠ p ∧ (s.pc q).tears = some g' ∧ g' ≠ g := by
    intro q g' hq
    rw [goto_pc] at hq
    split at hq
    · cases hq
    · rename_i hqp
      refine ⟨hqp, hq, fun he => hqp (h.one q p g (he ▸ hq) ?_)⟩
      rw [hp]
      rfl
  have hfgrp : ∀ g', ((s.setfgrp g none).goto p .idle).fgrp g' = if g' = g then none else s.fgrp g' :=
    fun g' => setfgrp_fgrp
  refine ⟨fun g' x hx => ?_, fun g' x hx => ?_, fun q g' hq => ?_, fun q g' x hq hx => ?_,
    fun q r g' hq hr => ?_, fun q n hq => ?_⟩
  · rw [hfgrp] at hx
    split at hx
    · cases hx
    · exact h.ok g' x hx
  · have hsum : Fd.users (s.goto p .idle) g' + (if (s.pc p).drops = some g' then 1 else 0) =
        Fd.users s g' + 0 := users_goto
    rw [hp] at hsum
    rw [hfgrp] at hx
    split at hx
    · cases hx
    · exact (h.users g' x hx).trans hsum.symm
  · have hne : g' ≠ g ∧ ∃ x, s.fgrp g' = some x := by
      rcases hq with hq | hq | hq
      · exact ⟨fun he => (hno q).1 (he ▸ hq), h.live q g' (.inl hq)⟩
      · rw [goto_pc] at hq
        split at hq
        · cases hq
        · exact ⟨fun he => (hno q).2 (he ▸ hq), h.live q g' (.inr (.inl hq))⟩
      · obtain ⟨-, hq, hg⟩ := htears q g' hq
        exact ⟨hg, h.live q g' (.inr (.inr hq))⟩
    rw [hfgrp, if_neg hne.1]
    exact hne.2
  · obtain ⟨hqp, hq, hg⟩ := htears q g' hq
    rw [hfgrp, if_neg hg] at hx
    rw [goto_pc, if_neg hqp]
    exact h.dying q g' x hq hx
  · exact h.one q r g' (htears q g' hq).2.1 (htears r g' hr).2.1
  · rw [goto_pc] at hq
    split at hq
    · cases hq
    · obtain ⟨g', x, hup, hx, hle⟩ := h.uses q n hq
      have hg : g' ≠ g := fun he => (hno q).1 (he ▸ hup)
      exact ⟨g', x, hup, by rw [hfgrp, if_neg hg, hx], hle⟩

end

/-! ## Steps keep it -/

omit [DecidableEq C] [DecidableEq P] [Fintype G] in
/-- Other processes do not take the table apart while `p` uses it. -/
theorem Tables.locked (h : Tables s) (hg : s.up p = some g) (hf : s.fgrp g = some f) (hok : f'.Ok)
    (href : f'.ref = f.ref) (hnfd : f.nfd ≤ f'.nfd) : Tables (s.setfgrp g (some f')) :=
  h.setfgrp hf hok href hnfd fun _ _ hq => absurd hq (h.busy (.inl hg))

omit [DecidableEq C] [DecidableEq P] [DecidableEq G] [Fintype P] [Fintype G] in
theorem Pc.drops_of_tears {k : Pc G C} (h : k.tears = some g) : k.drops = none := by
  cases k <;> first | rfl | cases h

omit [Fintype G] in
theorem Tables.move (h : Tables s) (hm : Move s p s') : Tables s' := by
  cases hm with
  | @locked g f f' k gain loss hg hf hchange hpass hloss hd ht hd' ht' hu =>
    have hok := h.ok g f hf
    have hc := hchange hok
    refine (h.locked hg hf (hc.ok hok) hc.ref hc.nfd).goto (hd'.trans hd.symm) (ht'.trans ht.symm)
      (fun g' x hq _ => ?_) fun n hn => ?_
    · rw [show (s.setfgrp g (some f')).pc p = s.pc p from rfl, ht] at hq
      cases hq
    · exact ⟨g, f', hg, setfgrp_fgrp.trans (if_pos rfl), Nat.le_trans (hu n hn hok) hc.nfd⟩
  | @hands ref elsewhere cexec k hsum hd ht hn hu =>
    refine (h.frame ref elsewhere cexec).goto hd ht (fun g f hq hf => ?_) fun n hk => ?_
    · rw [hn]
      exact (h.dying p g f hq hf).2
    · rcases hu n hk with ⟨m, hm, hle⟩ | hex
      · obtain ⟨g, f, hup, hf, hm⟩ := h.uses p m hm
        exact ⟨g, f, hup, hf, Nat.le_trans hle hm⟩
      · exact hex
  | @decref c elsewhere k hsum hd ht hn hu =>
    refine (h.frame _ elsewhere s.cexec).goto hd ht (fun g f hq hf => ?_) fun n hk => ?_
    · rw [hn]
      exact (h.dying p g f hq hf).2
    · exact h.uses p n (hu ▸ hk)
  | @tear g f i k ht hf hi ht' hu hpass hclose hdone =>
    have hok := h.ok g f hf
    have hlt : i < f.nfd := Nat.lt_of_le_of_lt hi hok.lt
    obtain ⟨hzero, hempty⟩ := h.dying p g f ht hf
    have hset : Tables (s.setfgrp g (some (f.put i none))) := by
      refine h.setfgrp hf ((Change.put hlt hi none).ok hok) rfl (Change.put hlt hi none).nfd
        fun q j _ hj => ?_
      rw [slot_put hlt]
      split
      · rfl
      · exact hj
    refine hset.goto ?_ (ht'.trans ht.symm) (fun g' x hq hx j hj => ?_) fun n hn => ?_
    · exact (Pc.drops_of_tears ht').trans (Pc.drops_of_tears ht).symm
    · have hgg : g = g' := Option.some.inj (ht.symm.trans hq)
      rw [setfgrp_fgrp, if_pos hgg.symm] at hx
      cases hx
      rw [slot_put hlt]
      split
      · rfl
      · rename_i hji
        exact hempty j ((hdone j hj).resolve_right hji)
    · rw [hu] at hn
      cases hn
  | @skip g f i k ht hf hs ht' hu hpass hdone =>
    obtain ⟨hzero, hempty⟩ := h.dying p g f ht hf
    refine h.goto ?_ (ht'.trans ht.symm) (fun g' x hq hx j hj => ?_) fun n hn => ?_
    · exact (Pc.drops_of_tears ht').trans (Pc.drops_of_tears ht).symm
    · have hgg : g = g' := Option.some.inj (ht.symm.trans hq)
      rw [← hgg, hf] at hx
      cases hx
      rcases hdone j hj with hj | rfl
      · exact hempty j hj
      · exact hs
    · rw [hu] at hn
      cases hn
  | free hp hf _ => exact h.free hp hf
  | drop hp hf => exact h.drop hp hf
  | @share g f q hg hf hup hpc =>
    refine h.join hup ⟨(h.ok g f hf).lt, (h.ok g f hf).high⟩ ?_ (fun r => h.busy (.inl hg))
      fun x hx => ?_
    · exact congrArg (· + 1) (h.users g f hf)
    · rw [hf] at hx
      cases hx
      exact Nat.le_refl _
  | @fresh g f q ref hg hok href hcount hup hpc =>
    have hmid := h.frame ref s.elsewhere s.cexec
    refine hmid.join hup hok ?_ (fun r hr => ?_) fun x hx => ?_
    · rw [hmid.users_zero hg, href]
    · obtain ⟨x, hx⟩ := h.live r g (.inr (.inr hr))
      rw [hg] at hx
      cases hx
    · rw [show Sys.fgrp _ g = s.fgrp g from rfl, hg] at hx
      cases hx
  | @regroup g g' f f' ref hg hf hg' hok href hcount hpc =>
    have hleave := (h.frame ref s.elsewhere s.cexec).leave hg hpc
    have hno : ∀ r, ((({ s with ref := ref }.setup p none).goto p (.closefgrp g)).pc r).tears ≠
        some g' := by
      intro r hr
      obtain ⟨x, hx⟩ := hleave.live r g' (.inr (.inr hr))
      cases hg'.symm.trans hx
    have hjoin := hleave.join (q := p) (setup_up.trans (if_pos rfl)) hok
      (by rw [hleave.users_zero hg', href]) hno
      (fun x hx => by cases hg'.symm.trans hx)
    have hsame : (({ s with ref := ref }.setfgrp g' (some f')).setup p (some g')).goto p
        (.closefgrp g) = ((({ s with ref := ref }.setup p none).goto p (.closefgrp g)).setfgrp g'
          (some f')).setup p (some g') := by
      simp [Sys.setup, Sys.goto, Sys.setfgrp]
    rw [hsame]
    exact hjoin
  | exit hg hf hpc => exact h.leave hg hpc

/-- References that go from a call to a table or back -/
theorem Refs.change (h : Refs s) {o : Option (Fgrp C)}
    (hsum : ∀ c, (o.elim 0 fun f => f.fd.count (some c)) + k.chans.count c =
      ((s.fgrp g).elim 0 fun f => f.fd.count (some c)) + (s.pc p).chans.count c) :
    Refs ((s.setfgrp g o).goto p k) := by
  intro c
  have hs := slots_setfgrp (s := s) (g := g) (c := c) o
  have hh : held ((s.setfgrp g o).goto p k) c + (s.pc p).chans.count c = held s c + k.chans.count c :=
    held_goto
  have hr := h c
  have hc := hsum c
  change s.ref c = slots (s.setfgrp g o) c + held ((s.setfgrp g o).goto p k) c + s.elsewhere c
  omega

omit [DecidableEq G] in
/-- References that the call gets or gives up -/
theorem Refs.hands (h : Refs s) (ref elsewhere : C → Nat) (cexec : C → Bool)
    (hsum : ∀ c, ref c + (s.pc p).chans.count c + s.elsewhere c =
      s.ref c + k.chans.count c + elsewhere c) :
    Refs ({ s with ref := ref, elsewhere := elsewhere, cexec := cexec }.goto p k) := by
  intro c
  have hh := held_goto (s := s) (p := p) (k := k) (c := c)
  have hr := h c
  have hc := hsum c
  change ref c = slots s c + held (s.goto p k) c + elsewhere c
  omega

omit [DecidableEq P] [DecidableEq G] [Fintype G] in
theorem held_pos (h : c ∈ (s.pc p).chans) : 0 < held s c := by
  have hle := Finset.single_le_sum (f := fun q => (s.pc q).chans.count c)
    (fun _ _ => Nat.zero_le _) (Finset.mem_univ p)
  exact Nat.lt_of_lt_of_le (List.count_pos_iff.mpr h) hle

/-- A new table for a process -/
theorem Refs.fresh (h : Refs s) {ref : C → Nat} (hg : s.fgrp g = none)
    (hcount : ∀ c, ref c = s.ref c + f.fd.count (some c)) (o : Option G) :
    Refs (({ s with ref := ref }.setfgrp g (some f)).setup q o) := by
  intro c
  have hs := slots_setfgrp (s := s) (g := g) (c := c) (some f)
  rw [hg] at hs
  have hr := h c
  have hc := hcount c
  change ref c = slots (s.setfgrp g (some f)) c + held s c + s.elsewhere c
  simp only [Option.elim] at hs
  omega

omit [DecidableEq P] [DecidableEq G] [Fintype P] [Fintype G] in
theorem count_eq_zero (h : ∀ i, f.slot i = none) (c : C) : f.fd.count (some c) = 0 := by
  refine List.count_eq_zero.mpr fun hmem => ?_
  obtain ⟨i, hi⟩ := List.getElem?_of_mem hmem
  have hn := h i
  unfold slot at hn
  rw [hi] at hn
  cases hn

theorem Refs.move (h : Refs s) (ht : Tables s) (hm : Move s p s') : Refs s' := by
  cases hm with
  | @locked g f f' k gain loss hg hf hchange hpass hloss hd htears hd' ht' hu =>
    have hc := hchange (ht.ok g f hf)
    refine h.change fun c => ?_
    have hsum := hc.sum c
    have hp := hpass c
    rw [hf]
    simp only [Option.elim]
    omega
  | hands ref elsewhere cexec hsum hd htears hn hu => exact h.hands _ _ _ hsum
  | @decref c elsewhere k hsum hd htears hn hu =>
    refine h.hands (update s.ref c (s.ref c - 1)) elsewhere s.cexec fun b => ?_
    have hb := hsum b
    have hr := h b
    rw [update_apply]
    by_cases hbc : b = c
    · subst hbc
      rw [List.count_singleton_self] at hb
      have hpos : 0 < s.ref b := by
        by_cases hch : b ∈ (s.pc p).chans
        · have hh := held_pos hch
          omega
        · rw [List.count_eq_zero.mpr hch] at hb
          omega
      rw [if_pos rfl]
      omega
    · rw [if_neg hbc]
      rw [List.count_singleton, if_neg (by simpa using Ne.symm hbc)] at hb
      omega
  | @tear g f i k htears hf hi ht' hu hpass hclose hdone =>
    have hlt : i < f.nfd := Nat.lt_of_le_of_lt hi (ht.ok g f hf).lt
    refine h.change fun c => ?_
    have hsum := (Change.put hlt hi none).sum c
    have hp := hpass c
    rw [hf]
    simp only [Option.elim, Option.toList, List.count_nil] at *
    omega
  | @skip g f i k htears hf hs ht' hu hpass hdone =>
    refine h.hands s.ref s.elsewhere s.cexec fun c => ?_
    have hp := hpass c
    simp only [List.count_nil, Nat.add_zero] at hp
    omega
  | @free g f i hp hf hi =>
    have hnone : ∀ j, f.slot j = none := by
      intro j
      by_cases hj : j < i
      · exact (ht.dying p g f (by rw [hp]; rfl) hf).2 j (by rw [hp]; exact hj)
      · exact (ht.ok g f hf).high j (by omega)
    refine h.change fun c => ?_
    rw [hf, hp]
    simp [Pc.chans, count_eq_zero hnone c]
  | @drop g f hp hf =>
    refine h.change fun c => ?_
    rw [hf, hp]
    split <;> simp [Pc.chans]
  | @share g f q hg hf hup hpc =>
    have hset : Refs ((s.setfgrp g (some { f with ref := f.ref + 1 })).goto p (s.pc p)) :=
      h.change fun c => by rw [hf]; rfl
    have hself : (s.setfgrp g (some { f with ref := f.ref + 1 })).goto p (s.pc p) =
        s.setfgrp g (some { f with ref := f.ref + 1 }) := goto_self _ p
    rw [hself] at hset
    exact hset
  | fresh hg hok href hcount hup hpc => exact h.fresh hg hcount _
  | @regroup g g' f f' ref hg hf hg' hok href hcount hpc =>
    have hset := h.fresh (q := p) hg' hcount (some g')
    have hidle : (({ s with ref := ref }.setfgrp g' (some f')).setup p (some g')).pc p = .idle := hpc
    refine hset.hands (p := p) (k := .closefgrp g) ref s.elsewhere s.cexec fun c => ?_
    rw [hidle]
    rfl
  | @exit g f hg hf hpc =>
    have hidle : (s.setup p none).pc p = .idle := hpc
    refine Refs.hands (s := s.setup p none) h (p := p) (k := .closefgrp g) s.ref s.elsewhere s.cexec
      fun c => ?_
    rw [hidle]
    rfl

theorem kernel_inductive : (kernel P G C).Inductive fun s => Tables s ∧ Refs s where
  init := by
    rintro s ⟨href, helse, hidle, p, g, hup, hfgrp⟩
    have hq : ∀ q g', s.up q = some g' → q = p ∧ g' = g := by
      intro q g' hq
      rw [hup, update_apply] at hq
      split at hq
      · exact ⟨‹_›, (Option.some.inj hq).symm⟩
      · cases hq
    have hf : ∀ g' f, s.fgrp g' = some f → g' = g ∧ f = .empty := by
      intro g' f hf
      rw [hfgrp, update_apply] at hf
      split at hf
      · exact ⟨‹_›, (Option.some.inj hf).symm⟩
      · cases hf
    have hspec := empty_spec (C := C)
    refine ⟨⟨fun g' f h => ?_, fun g' f h => ?_, fun q g' h => ?_, fun q g' f h => ?_, fun q r g' h => ?_,
      fun q n h => ?_⟩, fun c => ?_⟩
    · rw [(hf g' f h).2]
      exact hspec.1
    · obtain ⟨rfl, rfl⟩ := hf g' f h
      unfold users
      rw [Finset.sum_eq_zero (f := fun q => if (s.pc q).drops = some g' then 1 else 0)
        fun q _ => by rw [hidle]; rfl]
      rw [hup, Finset.sum_eq_single p (fun q _ hqp => ?_) fun h => absurd (Finset.mem_univ p) h]
      · rw [update_self, if_pos rfl]
        rfl
      · rw [update_of_ne hqp]
        rfl
    · rw [hidle] at h
      rcases h with h | h | h
      · obtain ⟨-, rfl⟩ := hq q g' h
        exact ⟨.empty, by rw [hfgrp, update_self]⟩
      · cases h
      · cases h
    · rw [hidle] at h
      cases h
    · rw [hidle] at h
      cases h
    · rw [hidle] at h
      cases h
    · have hslots : slots s c = 0 := by
        refine Finset.sum_eq_zero fun g' _ => ?_
        cases hg : s.fgrp g' with
        | none => rfl
        | some f =>
          rw [(hf g' f hg).2]
          exact hspec.2 c
      have hheld : held s c = 0 := Finset.sum_eq_zero fun q _ => by rw [hidle]; rfl
      rw [href, helse, hslots, hheld]
  step := by
    rintro s ⟨p, act⟩ s' ⟨ht, hr⟩ hs
    have hm : Move s p s' := by
      refine act_cases (fun g hg => ?_) hs
      obtain ⟨f, hf⟩ := ht.live p g (.inl hg)
      exact ⟨f, hf, ht.ok g f hf⟩
    exact ⟨ht.move hm, hr.move ht hm⟩

omit [Fintype G] in
/-- What is open stays open, or is about to be closed. -/
theorem Tables.keeps (ht : Tables s) (hm : Move s p s') {i : Nat} (hf : s.fgrp g = some f)
    (hc : f.slot i = some c) :
    (∃ f', s'.fgrp g = some f' ∧ f'.slot i = some c) ∨ c ∈ (s'.pc p).closes := by
  -- only one table changes
  have hset : ∀ {g₁ : G} {f₁ f₂ : Fgrp C}, s.fgrp g₁ = some f₁ →
      (f₁.slot i = some c → f₂.slot i = some c) →
      ∃ f', (s.setfgrp g₁ (some f₂)).fgrp g = some f' ∧ f'.slot i = some c := by
    intro g₁ f₁ f₂ h₁ h
    by_cases hg : g = g₁
    · subst hg
      rw [hf] at h₁
      cases h₁
      exact ⟨f₂, setfgrp_fgrp.trans (if_pos rfl), h hc⟩
    · exact ⟨f, setfgrp_fgrp.trans ((if_neg hg).trans hf), hc⟩
  have hnew : ∀ {g₁ : G} {f₂ : Fgrp C}, s.fgrp g₁ = none →
      ∃ f', (s.setfgrp g₁ (some f₂)).fgrp g = some f' ∧ f'.slot i = some c := by
    intro g₁ f₂ h₁
    have hg : g ≠ g₁ := by
      rintro rfl
      rw [hf] at h₁
      cases h₁
    exact ⟨f, setfgrp_fgrp.trans ((if_neg hg).trans hf), hc⟩
  cases hm with
  | @locked g₁ f₁ f₂ k gain loss hg₁ hf₁ hchange _ hloss _ _ _ _ _ =>
    have hch := hchange (ht.ok g₁ f₁ hf₁)
    by_cases hl : c ∈ loss
    · right
      rw [goto_pc, if_pos rfl]
      exact hloss c hl
    · exact .inl (hset hf₁ fun h => (hch.keeps i c h).resolve_right hl)
  | hands | decref | skip => exact .inl ⟨f, hf, hc⟩
  | @tear g₁ f₁ j k ht₁ hf₁ hj _ _ _ hclose _ =>
    by_cases hb : f₁.slot j = some c
    · right
      rw [goto_pc, if_pos rfl]
      exact hclose c hb
    · refine .inl (hset hf₁ fun h => ?_)
      rw [slot_put (Nat.lt_of_le_of_lt hj (ht.ok g₁ f₁ hf₁).lt), if_neg ?_]
      · exact h
      · rintro rfl
        exact hb h
  | @free g₁ f₁ j hp hf₁ hj =>
    have hg : g ≠ g₁ := by
      rintro rfl
      rw [hf] at hf₁
      cases hf₁
      have hlow : ¬ i < j := by
        intro hi
        rw [(ht.dying p g f (by rw [hp]; rfl) hf).2 i (by rw [hp]; exact hi)] at hc
        cases hc
      rw [(ht.ok g f hf).high i (by omega)] at hc
      cases hc
    exact .inl ⟨f, setfgrp_fgrp.trans ((if_neg hg).trans hf), hc⟩
  | @drop g₁ f₁ _ hf₁ => exact .inl (hset hf₁ fun h => h)
  | @share g₁ f₁ q _ hf₁ _ _ => exact .inl (hset hf₁ fun h => h)
  | fresh hg₁ _ _ _ _ _ => exact .inl (hnew hg₁)
  | regroup _ _ hg₁ _ _ _ _ => exact .inl (hnew hg₁)
  | exit => exact .inl ⟨f, hf, hc⟩

/-- References, tables and what the next step can do to them. -/
structure Safe (s : Sys P G C) : Prop where
  refs : ∀ c, s.ref c = slots s c + held s c + s.elsewhere c
  maxfd : ∀ g f, s.fgrp g = some f → f.maxfd < f.nfd ∧ ∀ i c, f.slot i = some c → i ≤ f.maxfd
  /-- what is looked at is in the table -/
  uses : ∀ p n, (s.pc p).uses = some n → ∃ g f, s.up p = some g ∧ s.fgrp g = some f ∧ n ≤ f.nfd
  keeps : ∀ p act s', s.act p act = some s' → ∀ g f i c, s.fgrp g = some f → f.slot i = some c →
    (∃ f', s'.fgrp g = some f' ∧ f'.slot i = some c) ∨ c ∈ (s'.pc p).closes
  newfd : ∀ g f, s.fgrp g = some f → ∀ c mem f' fd, f.newfd c mem = (f', some fd) → f.slot fd = none
  newfd2 : ∀ g f, s.fgrp g = some f → ∀ c₀ c₁ mem₀ mem₁ f' fd₀ fd₁,
    f.newfd2 c₀ c₁ mem₀ mem₁ = (f', some (fd₀, fd₁)) →
      f.slot fd₀ = none ∧ f.slot fd₁ = none ∧ fd₀ ≠ fd₁
  dupfgrp : ∀ g f, s.fgrp g = some f → ∀ mem f', f.dupfgrp mem = some f' → f'.slot = f.slot

theorem fd_tables (h : (kernel P G C).Reach s) : Safe s := by
  obtain ⟨ht, hr⟩ := kernel_inductive.reach h
  refine ⟨hr, fun g f hf => ⟨(ht.ok g f hf).lt, fun i c hc => ?_⟩, ht.uses,
    fun p act s' hs g f i c hf hc => ?_, fun g f hf c mem f' fd hfd => ?_,
    fun g f hf c₀ c₁ mem₀ mem₁ f' fd₀ fd₁ hfd => ?_, fun g f hf mem f' hf' => ?_⟩
  · by_contra hi
    rw [(ht.ok g f hf).high i (Nat.not_le.mp hi)] at hc
    cases hc
  · refine ht.keeps (act_cases (fun g hg => ?_) hs) hf hc
    obtain ⟨f, hf⟩ := ht.live p g (.inl hg)
    exact ⟨f, hf, ht.ok g f hf⟩
  · exact ((newfd_spec (ht.ok g f hf) hfd).2 fd rfl).1
  · exact (newfd2_spec (ht.ok g f hf) hfd).2 fd₀ fd₁ rfl
  · exact (dupfgrp_spec (ht.ok g f hf) hf').2.1

end

/-- One process with its table. -/
private def started : Sys Unit Bool Unit where
  fgrp := Function.update (fun _ => none) false (some .empty)
  ref _ := 0
  cexec _ := false
  elsewhere _ := 0
  up := Function.update (fun _ => none) () (some false)
  pc _ := .idle

/-- A file is opened, and `dup` makes the table grow; then the table is copied. -/
private def duped : List (Unit × Act Unit Bool Unit) :=
  [((), .get () true), ((), .newfd ()), ((), .go true true), ((), .dup 0 25), ((), .go true true),
    ((), .go true true), ((), .regroup true (.dup true))]

theorem fd_tables_duped : ∃ s : Sys Unit Bool Unit, (kernel Unit Bool Unit).Reach s ∧
    s.ref () = 4 ∧ (∃ f, s.fgrp true = some f ∧ f.nfd = 40 ∧ f.slot 25 = some ()) ∧ Safe s := by
  obtain ⟨s, hs⟩ : ∃ s, duped.foldlM (fun s e => s.act e.1 e.2) started = some s := ⟨_, rfl⟩
  have hinit : (kernel Unit Bool Unit).init started :=
    ⟨fun _ => rfl, fun _ => rfl, fun _ => rfl, (), false, rfl, rfl⟩
  have hreach : (kernel Unit Bool Unit).Reach s :=
    Lts.Reach.exec (fun _ _ _ h => h) ⟨[], .init hinit⟩ hs
  cases hs
  exact ⟨_, hreach, rfl, ⟨_, rfl, rfl, rfl⟩, fd_tables hreach⟩

end NixMark.Fd
