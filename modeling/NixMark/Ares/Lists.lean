import Mathlib.Data.List.Perm.Subperm
import NixMark.Ares.Cache

/-!
# The hash chains and the retransmission list of the cache

* `Rep`: the links are those of the lists; `Rep.unhash`, `Rep.inhash`, `Rep.unrxt`, `Rep.append`.
* `Filed`: an entry is on the chain of its address, and on the retransmission list if it waits for
  an answer; what each function does to such a cache.
-/

namespace NixMark.Ares

open Lib Ip
open Function (update update_apply update_comm update_of_ne update_self)

variable {I M B : Type} {t t' : Arp I M B} {a b k : Nat}

/-- It waits for an answer to solicitations. -/
def Arpent.waits (x : Arpent I M B) : Bool :=
  decide (x.state = .AWAIT) && (!isv4 x.ip && !ipismulticast x.ip)

/-! ## Lists -/

structure Rep (t : Arp I M B) (H : Nat → List Nat) (R : List Nat) : Prop where
  hash : Heads t.link t.hash H
  rxmt : Heads t.nextrxt (fun _ : Unit => t.rxmt) (fun _ => R)
  hashed : ∀ k, ∀ a ∈ H k, a < NCACHE
  listed : ∀ a ∈ R, a < NCACHE

variable {H : Nat → List Nat} {R : List Nat}

theorem length_le_NCACHE {l : List Nat} (hn : l.Nodup) (hb : ∀ a ∈ l, a < NCACHE) :
    l.length ≤ NCACHE := by
  have hs : l.Subperm (List.range NCACHE) :=
    List.subperm_of_subset hn fun a ha => List.mem_range.mpr (hb a ha)
  have hle := hs.length_le
  rwa [List.length_range] at hle

theorem Rep.chain_length (h : Rep t H R) (k : Nat) : (H k).length ≤ NCACHE :=
  length_le_NCACHE (h.hash.nodup k) (h.hashed k)

theorem Rep.rxmt_length (h : Rep t H R) : R.length ≤ NCACHE :=
  length_le_NCACHE (h.rxmt.nodup ()) h.listed

/-- Only links and heads matter. -/
theorem Rep.congr (h : Rep t H R) (hlink : t'.link = t.link) (hhash : t'.hash = t.hash)
    (hnext : t'.nextrxt = t.nextrxt) (hrxmt : t'.rxmt = t.rxmt) : Rep t' H R where
  hash := by rw [hlink, hhash]; exact h.hash
  rxmt := by rw [hnext, hrxmt]; exact h.rxmt
  hashed := h.hashed
  listed := h.listed

/-- The loops that look for the entry `a` end at it, or it is not there. -/
theorem walk_entry {next : Nat → Option Nat} {p : Option Nat} {l : List Nat} (h : Chain next p l)
    (hlen : l.length ≤ NCACHE) (a : Nat) :
    (a ∉ l ∧ walk next (fun f => f == a) NCACHE none p = (l.getLast?, none)) ∨
      ∃ l₁ l₂, l = l₁ ++ a :: l₂ ∧ a ∉ l₁ ∧
        walk next (fun f => f == a) NCACHE none p = (l₁.getLast?, some a) := by
  obtain ⟨l₁, l₂, hl, hw, h₁, h₂⟩ := walk_spec (fun f => f == a) h hlen
  have hno : a ∉ l₁ := by
    intro ha
    have hf := h₁ a ha
    rw [beq_self_eq_true] at hf
    cases hf
  cases l₂ with
  | nil =>
    rw [List.append_nil] at hl
    subst hl
    exact .inl ⟨hno, hw⟩
  | cons b l₂ =>
    have hb := h₂ b rfl
    rw [beq_iff_eq] at hb
    subst hb
    exact .inr ⟨l₁, l₂, hl, hno, hw⟩

theorem erase_middle {l₁ l₂ : List Nat} (h : a ∉ l₁) : (l₁ ++ a :: l₂).erase a = l₁ ++ l₂ := by
  rw [List.erase_append_right _ h, List.erase_cons_head]

/-- An entry is taken out of the chain where it is, if it is on one. -/
theorem heads_erase {κ : Type} [DecidableEq κ] {next : Nat → Option Nat} {head : κ → Option Nat}
    {L : κ → List Nat} (h : Heads next head L) {k : κ} (hlen : (L k).length ≤ NCACHE)
    (hk : ∀ k', a ∈ L k' → k' = k) :
    ∃ o, walk next (fun f => f == a) NCACHE none (head k) = o ∧
      (o.2 = none → ∀ k', a ∉ L k') ∧
      (o.2.isSome → Heads (relink next o.1 (next a)) (rehead head k o.1 (next a))
        fun k' => (L k').erase a) := by
  rcases walk_entry (h.chain k) hlen a with ⟨hno, hw⟩ | ⟨l₁, l₂, hl, hno, hw⟩
  · refine ⟨_, hw, fun _ k' ha => ?_, fun hs => by cases hs⟩
    rw [hk k' ha] at ha
    exact hno ha
  · refine ⟨_, hw, fun hn => (by cases hn), fun _ => ?_⟩
    have hL : (fun k' => (L k').erase a) = update L k (l₁ ++ l₂) := by
      funext k'
      by_cases hkk : k' = k
      · rw [hkk, update_self, hl, erase_middle hno]
      · rw [update_of_ne hkk, List.erase_of_not_mem fun ha => hkk (hk k' ha)]
    rw [hL]
    exact h.remove hl

theorem Rep.unhash (h : Rep t H R) (hk : ∀ k, a ∈ H k → k = haship (t.cache a).ip) :
    Rep (t.unhash a) (fun k => (H k).erase a) R := by
  obtain ⟨o, hw, hnone, hsome⟩ := heads_erase (a := a) h.hash (h.chain_length _) hk
  have hsub : ∀ k, ∀ b ∈ (H k).erase a, b < NCACHE := fun k b hb =>
    h.hashed k b (List.mem_of_mem_erase hb)
  unfold Arp.unhash
  simp only [hw]
  split
  · rename_i l f
    exact ⟨hsome rfl, h.rxmt, hsub, h.listed⟩
  · rename_i l
    have hH : (fun k => (H k).erase a) = H := by
      funext k
      exact List.erase_of_not_mem (hnone rfl k)
    rw [hH]
    exact h

theorem Rep.unrxt (h : Rep t H R) : Rep (t.unrxt a) H (R.erase a) := by
  obtain ⟨o, hw, hnone, hsome⟩ := heads_erase (a := a) (k := ()) h.rxmt h.rxmt_length fun _ _ => rfl
  have hsub : ∀ b ∈ R.erase a, b < NCACHE := fun b hb => h.listed b (List.mem_of_mem_erase hb)
  unfold Arp.unrxt
  simp only [hw]
  split
  · rename_i l f
    exact ⟨h.hash, hsome rfl, h.hashed, hsub⟩
  · rename_i l
    rw [List.erase_of_not_mem (hnone rfl ())]
    exact h

theorem Rep.inhash (h : Rep t H R) (ha : ∀ k, a ∉ H k) (hb : a < NCACHE) :
    Rep (t.inhash a k) (update H k (a :: H k)) R := by
  refine ⟨?_, h.rxmt, fun k' b hbk => ?_, h.listed⟩
  · have hi := h.hash.insert (List.nil_append (H k)).symm ha
    rw [(h.hash.chain k).head] at hi
    exact hi
  · by_cases hk : k' = k
    · rw [hk, update_self] at hbk
      rcases List.mem_cons.mp hbk with rfl | hbk
      · exact hb
      · exact h.hashed k b hbk
    · rw [update_of_ne hk] at hbk
      exact h.hashed k' b hbk

/-- The link of an entry that is not on the list may be cleared. -/
theorem Rep.endrxt (h : Rep t H R) (ha : a ∉ R) : Rep (t.endrxt a) H R where
  hash := h.hash
  rxmt := ⟨fun _ => (h.rxmt.chain ()).congr fun _ hb =>
    update_of_ne (ne_of_mem_of_not_mem hb ha) _ _, h.rxmt.nodup, h.rxmt.apart⟩
  hashed := h.hashed
  listed := h.listed

theorem Rep.endlink (h : Rep t H R) (ha : ∀ k, a ∉ H k) :
    Rep { t with link := update t.link a none } H R where
  hash := ⟨fun k => (h.hash.chain k).congr fun _ hb =>
    update_of_ne (ne_of_mem_of_not_mem hb (ha k)) _ _, h.hash.nodup, h.hash.apart⟩
  rxmt := h.rxmt
  hashed := h.hashed
  listed := h.listed

/-- An entry is put to the end of the retransmission list. -/
theorem Rep.append (h : Rep t H R) (ha : a ∉ R) (hb : a < NCACHE) :
    Rep ((t.addrxt a).endrxt a) H (R ++ [a]) := by
  have hwalk : (walk t.nextrxt (fun _ => false) NCACHE none t.rxmt).1 = R.getLast? := by
    obtain ⟨l₁, l₂, hl, hw, -, h₂⟩ := walk_spec (fun _ => false) (h.rxmt.chain ()) h.rxmt_length
    cases l₂ with
    | nil =>
      rw [List.append_nil] at hl
      rw [hw, hl]
    | cons b l₂ => cases h₂ b rfl
  have hi := h.rxmt.insert (k := ()) (List.append_nil R).symm fun _ => ha
  have hlast : R.getLast? ≠ some a := fun he => ha (List.mem_of_getLast? he)
  refine ⟨h.hash, ?_, h.hashed, fun b hb' => ?_⟩
  · refine ⟨fun _ => ?_, fun _ => hi.nodup (), fun _ _ => rfl⟩
    have hc := hi.chain ()
    rw [update_self] at hc
    change Chain (update (relink t.nextrxt (walk t.nextrxt (fun _ => false) NCACHE none
      t.rxmt).1 (some a)) a none) (rehead (fun _ => t.rxmt) () (walk t.nextrxt (fun _ => false)
      NCACHE none t.rxmt).1 (some a) ()) (R ++ [a])
    rw [hwalk]
    refine hc.congr fun b _ => ?_
    -- clearing the link of `a` and setting the last one commute
    cases hR : R.getLast? with
    | none => rfl
    | some q =>
      have hqa : a ≠ q := by
        rintro rfl
        exact hlast hR
      change update (update t.nextrxt q (some a)) a none b =
        update (update t.nextrxt a none) q (some a) b
      rw [update_comm hqa]
  · rcases List.mem_append.mp hb' with hb' | hb'
    · exact h.listed b hb'
    · rw [List.mem_singleton.mp hb']
      exact hb

/-! ## What the functions leave as it is -/

@[simp] theorem unhash_cache : (t.unhash a).cache = t.cache := by
  unfold Arp.unhash
  simp only
  split <;> rfl

@[simp] theorem unrxt_cache : (t.unrxt a).cache = t.cache := by
  unfold Arp.unrxt
  split <;> rfl

@[simp] theorem addrxt_cache : (t.addrxt a).cache = t.cache := rfl

@[simp] theorem endrxt_cache : (t.endrxt a).cache = t.cache := rfl

@[simp] theorem inhash_cache : (t.inhash a k).cache = t.cache := rfl

/-- Links and heads are the same. -/
structure SameLinks (t t' : Arp I M B) : Prop where
  link : t'.link = t.link
  hash : t'.hash = t.hash
  nextrxt : t'.nextrxt = t.nextrxt
  rxmt : t'.rxmt = t.rxmt

variable {f : Arpent I M B → Arpent I M B}

theorem SameLinks.mod : SameLinks t (t.mod a f) :=
  ⟨rfl, rfl, rfl, rfl⟩

theorem Rep.same (h : Rep t H R) (hs : SameLinks t t') : Rep t' H R :=
  h.congr hs.link hs.hash hs.nextrxt hs.rxmt

theorem mod_cache :
    (t.mod a f).cache b = if b = a then f (t.cache a) else t.cache b := update_apply ..

theorem mod_self : (t.mod a f).cache a = f (t.cache a) :=
  update_self ..

theorem mod_ne (h : b ≠ a) : (t.mod a f).cache b = t.cache b :=
  update_of_ne h ..

/-! ## Chains of the addresses, and who waits -/

structure Filed (t : Arp I M B) (H : Nat → List Nat) (R : List Nat) : Prop extends Rep t H R where
  home : ∀ k, ∀ a ∈ H k, haship (t.cache a).ip = k
  waits : ∀ a, a ∈ R ↔ (∃ k, a ∈ H k) ∧ (t.cache a).waits = true

/-- Neither addresses nor who waits change. -/
theorem Filed.keep (h : Filed t H R) (hrep : Rep t' H R)
    (hip : ∀ k, ∀ a ∈ H k, (t'.cache a).ip = (t.cache a).ip)
    (hwaits : ∀ k, ∀ a ∈ H k, (t'.cache a).waits = (t.cache a).waits) : Filed t' H R where
  toRep := hrep
  home k a ha := by rw [hip k a ha, h.home k a ha]
  waits a := by
    rw [h.waits a]
    constructor
    · rintro ⟨⟨k, ha⟩, hw⟩
      exact ⟨⟨k, ha⟩, by rw [hwaits k a ha, hw]⟩
    · rintro ⟨⟨k, ha⟩, hw⟩
      exact ⟨⟨k, ha⟩, by rw [← hwaits k a ha, hw]⟩

theorem Filed.mem_erase (h : Filed t H R) : b ∈ (H k).erase a ↔ b ≠ a ∧ b ∈ H k :=
  (h.hash.nodup k).mem_erase_iff

theorem Filed.mem_rxmt (h : Filed t H R) : b ∈ R.erase a ↔ b ≠ a ∧ b ∈ R :=
  (h.rxmt.nodup ()).mem_erase_iff

theorem Filed.mine (h : Filed t H R) (k : Nat) (ha : a ∈ H k) : k = haship (t.cache a).ip :=
  (h.home k a ha).symm

/-- The entry `a` is taken out everywhere. -/
theorem Filed.out (h : Filed t H R) (hrep : Rep t' (fun k => (H k).erase a) (R.erase a))
    (hsame : ∀ b ≠ a, t'.cache b = t.cache b) :
    Filed t' (fun k => (H k).erase a) (R.erase a) where
  toRep := hrep
  home k b hb := by
    obtain ⟨hba, hb⟩ := h.mem_erase.mp hb
    rw [hsame b hba, h.home k b hb]
  waits b := by
    rw [h.mem_rxmt]
    constructor
    · rintro ⟨hba, hb⟩
      obtain ⟨⟨k, hk⟩, hw⟩ := (h.waits b).mp hb
      exact ⟨⟨k, h.mem_erase.mpr ⟨hba, hk⟩⟩, by rw [hsame b hba, hw]⟩
    · rintro ⟨⟨k, hk⟩, hw⟩
      obtain ⟨hba, hk⟩ := h.mem_erase.mp hk
      exact ⟨hba, (h.waits b).mpr ⟨⟨k, hk⟩, by rw [← hsame b hba, hw]⟩⟩

/-- The entry `a` does not wait any more. -/
theorem Filed.answered (h : Filed t H R) (hrep : Rep t' H (R.erase a))
    (hip : (t'.cache a).ip = (t.cache a).ip) (hw : (t'.cache a).waits = false)
    (hsame : ∀ b ≠ a, t'.cache b = t.cache b) : Filed t' H (R.erase a) where
  toRep := hrep
  home k b hb := by
    by_cases hba : b = a
    · subst hba
      rw [hip, h.home k b hb]
    · rw [hsame b hba, h.home k b hb]
  waits b := by
    rw [h.mem_rxmt]
    by_cases hba : b = a
    · subst hba
      rw [hw]
      simp
    · rw [hsame b hba, h.waits b]
      simp [hba]

/-- The lists after the entry `a` was taken for another address. -/
def refile (H : Nat → List Nat) (a k : Nat) : Nat → List Nat :=
  Function.update (fun k => (H k).erase a) k (a :: (H k).erase a)

theorem Filed.mem_refile (h : Filed t H R) {k' : Nat} :
    b ∈ refile H a k k' ↔ b = a ∧ k' = k ∨ b ≠ a ∧ b ∈ H k' := by
  unfold refile
  rw [update_apply]
  split
  · rename_i hk
    subst hk
    rw [List.mem_cons, h.mem_erase]
    simp
  · rename_i hk
    rw [h.mem_erase]
    simp [hk]

/-- The entry `a` has been taken for another address. -/
theorem Filed.recycled (h : Filed t H R) {R' : List Nat}
    (hrep : Rep t' (refile H a (haship (t'.cache a).ip)) R')
    (hR : ∀ b, b ∈ R' ↔ b = a ∧ (t'.cache a).waits = true ∨ b ≠ a ∧ b ∈ R)
    (hsame : ∀ b ≠ a, t'.cache b = t.cache b) :
    Filed t' (refile H a (haship (t'.cache a).ip)) R' where
  toRep := hrep
  home k b hb := by
    rcases h.mem_refile.mp hb with ⟨rfl, rfl⟩ | ⟨hba, hb⟩
    · rfl
    · rw [hsame b hba, h.home k b hb]
  waits b := by
    rw [hR]
    by_cases hba : b = a
    · subst hba
      simp [h.mem_refile]
    · simp only [hba, false_and, ne_eq, not_false_eq_true, true_and, false_or]
      rw [h.waits b, hsame b hba]
      simp [h.mem_refile, hba]

/-! ## The functions -/

/-- It is on the retransmission list. -/
def Arp.onrxt (t : Arp I M B) (a : Nat) : Bool :=
  (walk t.nextrxt (fun f => f == a) NCACHE none t.rxmt).2.isSome

theorem Rep.onrxt_iff (h : Rep t H R) : t.onrxt a = true ↔ a ∈ R := by
  unfold Arp.onrxt
  rcases walk_entry (h.rxmt.chain ()) h.rxmt_length a with ⟨hno, hw⟩ | ⟨l₁, l₂, hl, -, hw⟩
  · rw [hw]
    exact ⟨fun hh => (by cases hh), fun hh => absurd hh hno⟩
  · rw [hw, hl]
    simp

theorem oldest_lt : t.oldest < NCACHE := by
  unfold Arp.oldest
  have hfold : ∀ (l : List Nat) (a : Nat), (∀ f ∈ l, f < NCACHE) → a < NCACHE →
      l.foldl (fun a f => if (t.cache f).utime < (t.cache a).utime then f else a) a < NCACHE := by
    intro l
    induction l with
    | nil => exact fun a _ ha => ha
    | cons f l ih =>
      intro a hl ha
      refine ih _ (fun g hg => hl g (List.mem_cons_of_mem f hg)) ?_
      beta_reduce
      split
      · exact hl f List.mem_cons_self
      · exact ha
  exact hfold _ 0 (fun f hf => List.mem_range.mp hf) (by decide)

/-- What does not concern links and addresses. -/
structure Aside (t t' : Arp I M B) : Prop extends SameLinks t t' where
  ip : ∀ a, (t'.cache a).ip = (t.cache a).ip
  waits : ∀ a, (t'.cache a).waits = (t.cache a).waits

theorem Filed.aside (h : Filed t H R) (ha : Aside t t') : Filed t' H R :=
  h.keep (h.toRep.same ha.toSameLinks) (fun _ a _ => ha.ip a) fun _ a _ => ha.waits a

theorem Aside.trans {t'' : Arp I M B} (h : Aside t t') (h' : Aside t' t'') : Aside t t'' where
  link := h'.link.trans h.link
  hash := h'.hash.trans h.hash
  nextrxt := h'.nextrxt.trans h.nextrxt
  rxmt := h'.rxmt.trans h.rxmt
  ip a := (h'.ip a).trans (h.ip a)
  waits a := (h'.waits a).trans (h.waits a)

theorem Aside.refl (t : Arp I M B) : Aside t t :=
  ⟨⟨rfl, rfl, rfl, rfl⟩, fun _ => rfl, fun _ => rfl⟩

theorem Aside.mod (hip : (f (t.cache a)).ip = (t.cache a).ip)
    (hstate : (f (t.cache a)).state = (t.cache a).state) : Aside t (t.mod a f) where
  toSameLinks := .mod
  ip b := by
    rw [mod_cache]
    split
    · rename_i hba
      rw [hip, hba]
    · rfl
  waits b := by
    rw [mod_cache]
    split
    · rename_i hba
      unfold Arpent.waits
      rw [hip, hstate, hba]
    · rfl

variable [DecidableEq B]

theorem Aside.hang {xp : List B} : Aside t (t.hang xp) := by
  unfold Arp.hang
  split
  · exact ⟨⟨rfl, rfl, rfl, rfl⟩, fun _ => rfl, fun _ => rfl⟩
  · split
    · exact ⟨⟨rfl, rfl, rfl, rfl⟩, fun _ => rfl, fun _ => rfl⟩
    · exact .refl t

theorem hang_cache {xp : List B} : (t.hang xp).cache = t.cache := by
  unfold Arp.hang
  split
  · rfl
  · split <;> rfl

theorem Aside.dump : Aside t (t.dump a).1 := by
  have hmod : Aside t (t.mod a fun x => { x with hold := [] }) := .mod rfl rfl
  unfold Arp.dump
  simp only
  split
  · exact hmod
  · split
    · exact hmod
    · have hh : Aside (t.mod a fun x => { x with hold := [] })
          ((t.mod a fun x => { x with hold := [] }).hang (t.cache a).hold) := .hang
      have hl := hmod.trans hh
      exact ⟨⟨hl.link, hl.hash, hl.nextrxt, hl.rxmt⟩, hl.ip, hl.waits⟩

theorem dump_ne (h : b ≠ a) : (t.dump a).1.cache b = t.cache b := by
  have hmod : (t.mod a fun x => { x with hold := [] }).cache b = t.cache b := mod_ne h
  unfold Arp.dump
  simp only
  split
  · exact hmod
  · split
    · exact hmod
    · refine Eq.trans ?_ hmod
      exact congrFun hang_cache b

/-- The oldest entry is taken for the address. -/
theorem newarp6_spec (h : Filed t H R) (w : World I M) (ip : IPaddr) (ifc : I) (addrxt : Bool)
    (hold : t.oldest ∈ R → (!ipismulticast ip && addrxt) = true) :
    (t.newarp6 w ip ifc addrxt).2.1 = t.oldest ∧
      Rep (t.newarp6 w ip ifc addrxt).1 (refile H t.oldest (haship ip))
        (if (!ipismulticast ip && addrxt) = true then R.erase t.oldest ++ [t.oldest] else R) ∧
      ((t.newarp6 w ip ifc addrxt).1.cache t.oldest).ip = ip ∧
      ∀ b ≠ t.oldest, (t.newarp6 w ip ifc addrxt).1.cache b = t.cache b := by
  have hdump : Filed (t.dump t.oldest).1 H R := h.aside .dump
  have hout := hdump.toRep.unhash (a := t.oldest) fun k => hdump.mine k
  have hno : ∀ k, t.oldest ∉ (H k).erase t.oldest := fun k hk => (h.mem_erase.mp hk).1 rfl
  have hin := hout.inhash (k := haship ip) hno oldest_lt
  have hmod := hin.same (SameLinks.mod (a := t.oldest) (f := fun x => { x with
    ip := ip, utime := w.now, ctime := 0, type := w.medium ifc, rtime := w.now + ReTransTimer
    rxtsrem := MAX_MULTICAST_SOLICIT, ifc := some ifc, ifcid := w.ifcid ifc }))
  unfold Arp.newarp6
  simp only
  by_cases hc : (!ipismulticast ip && addrxt) = true
  · rw [if_pos hc, if_pos hc]
    refine ⟨trivial, ?_, ?_, fun b hb => ?_⟩
    · exact hmod.unrxt.append (fun hm => (h.mem_rxmt.mp hm).1 rfl) oldest_lt
    · rw [endrxt_cache, addrxt_cache, unrxt_cache, mod_self]
    · rw [endrxt_cache, addrxt_cache, unrxt_cache, mod_ne hb, inhash_cache, unhash_cache,
        dump_ne hb]
  · rw [if_neg hc, if_neg hc]
    refine ⟨trivial, ?_, ?_, fun b hb => ?_⟩
    · exact hmod.endrxt fun hm => hc (hold hm)
    · rw [endrxt_cache, mod_self]
    · rw [endrxt_cache, mod_ne hb, inhash_cache, unhash_cache, dump_ne hb]

omit [DecidableEq B] in
theorem cleanarpent_cache (hb : b ≠ a) : (t.cleanarpent a).cache b = t.cache b := by
  unfold Arp.cleanarpent
  simp only
  rw [mod_ne hb]
  change (((Arp.unhash _ a).unrxt a).endrxt a).cache b = t.cache b
  rw [endrxt_cache, unrxt_cache, unhash_cache, mod_ne hb]

omit [DecidableEq B] in
theorem cleanarpent_filed (h : Filed t H R) :
    Filed (t.cleanarpent a) (fun k => (H k).erase a) (R.erase a) := by
  have hrep : Rep (t.mod a fun x =>
      { x with utime := 0, ctime := 0, type := none, state := .UNUSED }) H R := h.toRep.same .mod
  have hout := (hrep.unhash (a := a) fun k hk => by
    rw [mod_self]
    exact h.mine k hk).unrxt (a := a)
  have hend := (hout.endrxt fun hm => (h.mem_rxmt.mp hm).1 rfl).endlink (a := a) fun k hk =>
    (h.mem_erase.mp hk).1 rfl
  refine h.out ?_ fun b hb => cleanarpent_cache hb
  exact hend.same ⟨rfl, rfl, rfl, rfl⟩

end NixMark.Ares
