import NixMark.Lib.Sums
import NixMark.Ares.Lists
import NixMark.Ares.Sys

/-!
# The packets that wait in the cache

* `Arp.blocks`: how often a block is on a hold list or among the drops; `Ok`: what the functions
  need of a cache; `Loses`: what goes out of it.
* One lemma for each function: what it takes in, sends or frees is what the lists lose.
-/

namespace NixMark.Ares

open Lib Ip
open Function (update update_apply update_idem update_self)

variable {I M B : Type} [DecidableEq B] {t t' t'' : Arp I M B} {a : Nat}

/-- How often the block is in the cache. -/
@[irreducible]
def Arp.blocks (t : Arp I M B) (b : B) : Nat :=
  ((List.range NCACHE).map fun a => (t.cache a).hold.count b).sum + t.dropf.count b

omit [DecidableEq B] in
/-- All links lead to entries. -/
structure Within (t : Arp I M B) : Prop where
  link : ∀ a b, t.link a = some b → b < NCACHE
  nextrxt : ∀ a b, t.nextrxt a = some b → b < NCACHE
  hash : ∀ k b, t.hash k = some b → b < NCACHE
  rxmt : ∀ b, t.rxmt = some b → b < NCACHE

structure Ok (t : Arp I M B) : Prop where
  within : Within t
  quiet : ∀ a, (t.cache a).state ≠ .AWAIT → (t.cache a).hold = []
  tidy : t.dropl = t.dropf.getLast?
  once : ∀ b, t.blocks b ≤ 1

/-- The blocks `gone` are not in the cache any more. -/
structure Loses (t t' : Arp I M B) (gone : List B) : Prop where
  ok : Ok t'
  count : ∀ b, t'.blocks b + gone.count b = t.blocks b

/-! ## Links -/

section

variable {κ : Type} [DecidableEq κ] {next : Nat → Option Nat} {head : κ → Option Nat}
  {p q : Option Nat}

omit [DecidableEq B]

theorem relink_within (h : ∀ a b, next a = some b → b < NCACHE)
    (hq : ∀ b, q = some b → b < NCACHE) (a b : Nat) (hb : relink next p q a = some b) :
    b < NCACHE := by
  cases p with
  | none => exact h a b hb
  | some c =>
    change update next c q a = some b at hb
    rw [update_apply] at hb
    split at hb
    · exact hq b hb
    · exact h a b hb

theorem rehead_within {k : κ} (h : ∀ k b, head k = some b → b < NCACHE)
    (hq : ∀ b, q = some b → b < NCACHE) (k' : κ) (b : Nat) (hb : rehead head k p q k' = some b) :
    b < NCACHE := by
  cases p with
  | some c => exact h k' b hb
  | none =>
    change update head k q k' = some b at hb
    rw [update_apply] at hb
    split at hb
    · exact hq b hb
    · exact h k' b hb

theorem update_within (h : ∀ a b, next a = some b → b < NCACHE)
    (hq : ∀ b, q = some b → b < NCACHE) (c a b : Nat) (hb : update next c q a = some b) :
    b < NCACHE := by
  rw [update_apply] at hb
  split at hb
  · exact hq b hb
  · exact h a b hb

theorem walk_within {test : Nat → Bool} (h : ∀ a b, next a = some b → b < NCACHE) (fuel : Nat) :
    ∀ {l p : Option Nat}, (∀ b, p = some b → b < NCACHE) →
      ∀ b, (walk next test fuel l p).2 = some b → b < NCACHE := by
  induction fuel with
  | zero =>
    intro l p _ b hb
    cases hb
  | succ fuel ih =>
    intro l p hp b hb
    cases p with
    | none => cases hb
    | some c =>
      rw [walk] at hb
      split at hb
      · cases hb
        exact hp _ rfl
      · exact ih (h c) b hb

theorem Within.unhash (h : Within t) : Within (t.unhash a) := by
  unfold Arp.unhash
  simp only
  split
  · exact ⟨relink_within h.link (h.link a), h.nextrxt, rehead_within h.hash (h.link a), h.rxmt⟩
  · exact h

theorem Within.unrxt (h : Within t) : Within (t.unrxt a) := by
  unfold Arp.unrxt
  split
  · exact ⟨h.link, relink_within h.nextrxt (h.nextrxt a), h.hash,
      rehead_within (fun _ => h.rxmt) (h.nextrxt a) ()⟩
  · exact h

theorem Within.inhash {k : Nat} (h : Within t) (ha : a < NCACHE) : Within (t.inhash a k) :=
  have hsome : ∀ b, some a = some b → b < NCACHE := fun _ hb => Option.some.inj hb ▸ ha
  ⟨update_within h.link (h.hash k) a, h.nextrxt, update_within h.hash hsome k, h.rxmt⟩

theorem Within.addrxt (h : Within t) (ha : a < NCACHE) : Within (t.addrxt a) :=
  have hsome : ∀ b, some a = some b → b < NCACHE := fun _ hb => Option.some.inj hb ▸ ha
  ⟨h.link, relink_within h.nextrxt hsome, h.hash, rehead_within (fun _ => h.rxmt) hsome ()⟩

theorem Within.endrxt (h : Within t) : Within (t.endrxt a) :=
  ⟨h.link, update_within h.nextrxt (fun _ hb => by cases hb) a, h.hash, h.rxmt⟩

theorem Within.endlink (h : Within t) : Within { t with link := update t.link a none } :=
  ⟨update_within h.link (fun _ hb => by cases hb) a, h.nextrxt, h.hash, h.rxmt⟩

theorem Within.find (h : Within t) {ip : IPaddr} {test : Arpent I M B → Bool}
    (hf : t.find ip test = some a) : a < NCACHE :=
  walk_within h.link NCACHE (h.hash _) a hf

end

omit [DecidableEq B] in
theorem unhash_drops : (t.unhash a).dropf = t.dropf ∧ (t.unhash a).dropl = t.dropl := by
  unfold Arp.unhash
  simp only
  split <;> exact ⟨rfl, rfl⟩

omit [DecidableEq B] in
theorem unrxt_drops : (t.unrxt a).dropf = t.dropf ∧ (t.unrxt a).dropl = t.dropl := by
  unfold Arp.unrxt
  split <;> exact ⟨rfl, rfl⟩

/-! ## What goes out -/

theorem Loses.trans {l l' : List B} (h : Loses t t' l) (h' : Loses t' t'' l') :
    Loses t t'' (l ++ l') := by
  refine ⟨h'.ok, fun b => ?_⟩
  have h1 := h.count b
  have h2 := h'.count b
  rw [List.count_append]
  omega

theorem Loses.silent {l : List B} (h : Loses t t' l) (h' : Loses t' t'' []) : Loses t t'' l := by
  have ht := h.trans h'
  rw [List.append_nil] at ht
  exact ht

theorem blocks_congr (hhold : ∀ a, (t'.cache a).hold = (t.cache a).hold)
    (hdropf : t'.dropf = t.dropf) (b : B) : t'.blocks b = t.blocks b := by
  unfold Arp.blocks
  simp only [hhold, hdropf]

/-- Neither packets nor states change. -/
theorem Ok.keep (h : Ok t) (hw : Within t') (hhold : ∀ a, (t'.cache a).hold = (t.cache a).hold)
    (hstate : ∀ a, (t'.cache a).state = (t.cache a).state) (hdropf : t'.dropf = t.dropf)
    (hdropl : t'.dropl = t.dropl) : Loses t t' [] := by
  refine ⟨⟨hw, fun a ha => ?_, by rw [hdropl, hdropf]; exact h.tidy, fun b => ?_⟩, fun b => ?_⟩
  · rw [hhold]
    exact h.quiet a (hstate a ▸ ha)
  · rw [blocks_congr hhold hdropf]
    exact h.once b
  · rw [List.count_nil, Nat.add_zero]
    exact blocks_congr hhold hdropf b

variable {f : Arpent I M B → Arpent I M B}

theorem blocks_mod (ha : a < NCACHE) (b : B) :
    (t.mod a f).blocks b + (t.cache a).hold.count b =
      t.blocks b + (f (t.cache a)).hold.count b := by
  have hs := list_sum_update List.nodup_range (List.mem_range.mpr ha)
    (fun x : Arpent I M B => x.hold.count b) t.cache (f (t.cache a))
  unfold Arp.blocks
  change (List.map (fun j => (update t.cache a (f (t.cache a)) j).hold.count b) _).sum +
    t.dropf.count b + _ = _
  generalize List.range NCACHE = l at *
  omega

/-- The packets of an entry are taken. -/
theorem Ok.take (h : Ok t) (ha : a < NCACHE) (hf : (f (t.cache a)).hold = []) :
    Loses t (t.mod a f) (t.cache a).hold := by
  have hcount : ∀ b, (t.mod a f).blocks b + (t.cache a).hold.count b = t.blocks b := by
    intro b
    have hm := blocks_mod (t := t) (f := f) ha b
    rw [hf, List.count_nil, Nat.add_zero] at hm
    exact hm
  refine ⟨⟨⟨h.within.link, h.within.nextrxt, h.within.hash, h.within.rxmt⟩, fun c hc => ?_, h.tidy,
    fun b => ?_⟩, hcount⟩
  · rw [mod_cache] at hc ⊢
    split
    · exact hf
    · rename_i hca
      rw [if_neg hca] at hc
      exact h.quiet c hc
  · have h1 := hcount b
    have h2 := h.once b
    omega

/-- An entry is changed that has no packets, or stays in the same state with them. -/
theorem Ok.mod (h : Ok t) (hhold : (f (t.cache a)).hold = (t.cache a).hold)
    (hstate : (f (t.cache a)).state = (t.cache a).state ∨ (t.cache a).hold = []) :
    Loses t (t.mod a f) [] := by
  have hsame : ∀ c, ((t.mod a f).cache c).hold = (t.cache c).hold := by
    intro c
    rw [mod_cache]
    split
    · rename_i hca
      rw [hhold, hca]
    · rfl
  have hw : Within (t.mod a f) := ⟨h.within.link, h.within.nextrxt, h.within.hash, h.within.rxmt⟩
  have hblocks : ∀ b, (t.mod a f).blocks b = t.blocks b := blocks_congr hsame rfl
  refine ⟨⟨hw, fun c hc => ?_, h.tidy, fun b => ?_⟩, fun b => ?_⟩
  · rw [hsame]
    rw [mod_cache] at hc
    split at hc
    · rename_i hca
      rw [hca]
      rcases hstate with hs | hs
      · exact h.quiet a (hs ▸ hc)
      · exact hs
    · exact h.quiet c hc
  · rw [hblocks]
    exact h.once b
  · rw [List.count_nil, Nat.add_zero]
    exact hblocks b

theorem Ok.unhash (h : Ok t) : Loses t (t.unhash a) [] :=
  h.keep h.within.unhash (fun c => by rw [unhash_cache]) (fun c => by rw [unhash_cache])
    unhash_drops.1 unhash_drops.2

theorem Ok.unrxt (h : Ok t) : Loses t (t.unrxt a) [] :=
  h.keep h.within.unrxt (fun c => by rw [unrxt_cache]) (fun c => by rw [unrxt_cache])
    unrxt_drops.1 unrxt_drops.2

/-! ## The drops -/

theorem Ok.nodup (h : Ok t) : t.dropf.Nodup := by
  rw [List.nodup_iff_count_le_one]
  intro b
  have hle : t.dropf.count b ≤ t.blocks b := by
    unfold Arp.blocks
    exact Nat.le_add_left _ _
  exact Nat.le_trans hle (h.once b)

/-- The packets are put behind the drops. -/
theorem hang_dropf (htidy : t.dropl = t.dropf.getLast?) (hn : t.dropf.Nodup) (xp : List B) :
    (t.hang xp).dropf = t.dropf ++ xp := by
  unfold Arp.hang
  rcases List.eq_nil_or_concat t.dropf with hnil | ⟨l, d, hl⟩
  · rw [htidy, hnil]
    rfl
  · rw [List.concat_eq_append] at hl
    have hd : t.dropl = some d := by rw [htidy, hl, List.getLast?_concat]
    have hmem : d ∈ t.dropf := by
      rw [hl]
      exact List.mem_append_right _ List.mem_cons_self
    have hno : d ∉ l := by
      rw [hl] at hn
      intro hm
      exact (List.nodup_append.mp hn).2.2 d hm d List.mem_cons_self rfl
    rw [hd]
    simp only [if_pos hmem]
    rw [hl, List.takeWhile_append_of_pos, List.takeWhile_cons_of_neg, List.append_nil,
      List.append_assoc, List.singleton_append]
    · simp
    · intro b hb
      rw [decide_eq_true_eq]
      exact ne_of_mem_of_not_mem hb hno

theorem blocks_drops {d : List B} {o : Option B} (b : B) :
    ({ t with dropf := d, dropl := o } : Arp I M B).blocks b + t.dropf.count b =
      t.blocks b + d.count b := by
  unfold Arp.blocks
  simp only
  omega

/-- The packets of an entry are freed, or put behind the drops. -/
theorem Ok.dump (h : Ok t) (ha : a < NCACHE) :
    Loses t (t.dump a).1 (t.dump a).2 ∧ ((t.dump a).1.cache a).hold = [] := by
  have htake : Loses t (t.mod a fun x => { x with hold := [] }) (t.cache a).hold := h.take ha rfl
  have hnil : ((t.mod a fun x => { x with hold := [] }).cache a).hold = [] :=
    congrArg Arpent.hold (mod_self (t := t))
  unfold Arp.dump
  simp only
  generalize (t.mod a fun x => { x with hold := [] }) = u at *
  split
  · exact ⟨htake, hnil⟩
  · split
    · rename_i hx
      rw [hx] at htake
      exact ⟨htake, hnil⟩
    · rename_i hx
      have hu := htake.ok
      have hdropf := hang_dropf hu.tidy hu.nodup (t.cache a).hold
      have hcache : (u.hang (t.cache a).hold).cache = u.cache := hang_cache
      have hside : Aside u (u.hang (t.cache a).hold) := .hang
      generalize u.hang (t.cache a).hold = v at *
      have hcount : ∀ b, ({ v with dropl := (t.cache a).hold.getLast? } : Arp I M B).blocks b =
          t.blocks b := by
        intro b
        have h1 := htake.count b
        unfold Arp.blocks at h1 ⊢
        rw [← h1]
        change (List.map (fun j => (v.cache j).hold.count b) _).sum + v.dropf.count b = _
        rw [hcache, hdropf, List.count_append]
        generalize List.range NCACHE = l
        omega
      refine ⟨⟨⟨?_, fun c hc => ?_, ?_, fun b => ?_⟩, fun b => ?_⟩, ?_⟩
      · refine ⟨fun c d => ?_, fun c d => ?_, fun c d => ?_, fun d => ?_⟩
        · change v.link c = some d → _
          rw [hside.link]
          exact hu.within.link c d
        · change v.nextrxt c = some d → _
          rw [hside.nextrxt]
          exact hu.within.nextrxt c d
        · change v.hash c = some d → _
          rw [hside.hash]
          exact hu.within.hash c d
        · change v.rxmt = some d → _
          rw [hside.rxmt]
          exact hu.within.rxmt d
      · change (v.cache c).state ≠ .AWAIT at hc
        change (v.cache c).hold = []
        rw [hcache] at hc ⊢
        exact hu.quiet c hc
      · change (t.cache a).hold.getLast? = v.dropf.getLast?
        rw [hdropf, List.getLast?_append_of_ne_nil _ hx]
      · rw [hcount b]
        exact h.once b
      · rw [List.count_nil, Nat.add_zero]
        exact hcount b
      · change (v.cache a).hold = []
        rw [hcache]
        exact hnil

omit [DecidableEq B] in
theorem mod_mod {g : Arpent I M B → Arpent I M B} : (t.mod a f).mod a g = t.mod a (g ∘ f) := by
  unfold Arp.mod
  simp only [update_self, update_idem]
  rfl

omit [DecidableEq B] in
theorem unrxt_mod {b : Nat} : (t.mod a f).unrxt b = (t.unrxt b).mod a f := by
  have hmod : walk (t.mod a f).nextrxt (fun f => f == b) NCACHE none (t.mod a f).rxmt =
      walk t.nextrxt (fun f => f == b) NCACHE none t.rxmt := rfl
  unfold Arp.unrxt
  rw [hmod]
  rcases walk t.nextrxt (fun f => f == b) NCACHE none t.rxmt with ⟨l, _ | c⟩ <;> rfl

/-! ## The functions -/

omit [DecidableEq B] in
theorem Within.same (h : Within t) (hs : SameLinks t t') : Within t' := by
  refine ⟨fun a b => ?_, fun a b => ?_, fun k b => ?_, fun b => ?_⟩
  · rw [hs.link]
    exact h.link a b
  · rw [hs.nextrxt]
    exact h.nextrxt a b
  · rw [hs.hash]
    exact h.hash k b
  · rw [hs.rxmt]
    exact h.rxmt b

theorem Ok.inhash {k : Nat} (h : Ok t) (ha : a < NCACHE) : Loses t (t.inhash a k) [] :=
  h.keep (h.within.inhash ha) (fun _ => rfl) (fun _ => rfl) rfl rfl

theorem Ok.endrxt (h : Ok t) : Loses t (t.endrxt a) [] :=
  h.keep h.within.endrxt (fun _ => rfl) (fun _ => rfl) rfl rfl

theorem Ok.endlink (h : Ok t) : Loses t { t with link := update t.link a none } [] :=
  h.keep h.within.endlink (fun _ => rfl) (fun _ => rfl) rfl rfl

/-- An entry is put to the end of the list. -/
theorem Ok.atend (h : Ok t) (ha : a < NCACHE) : Loses t ((t.unrxt a).addrxt a) [] :=
  h.unrxt.silent (h.unrxt.ok.keep (h.unrxt.ok.within.addrxt ha) (fun _ => rfl) (fun _ => rfl) rfl rfl)

theorem newarp6_loses (h : Ok t) (w : World I M) (ip : IPaddr) (ifc : I) (addrxt : Bool) :
    Loses t (t.newarp6 w ip ifc addrxt).1 (t.newarp6 w ip ifc addrxt).2.2 ∧
      ((t.newarp6 w ip ifc addrxt).1.cache t.oldest).hold = [] ∧
      (t.newarp6 w ip ifc addrxt).2.1 = t.oldest := by
  have ha : t.oldest < NCACHE := oldest_lt
  unfold Arp.newarp6
  simp only
  generalize t.oldest = a at *
  obtain ⟨hdump, hnil⟩ := h.dump ha
  have hin : Loses t (((t.dump a).1.unhash a).inhash a (haship ip)) (t.dump a).2 :=
    (hdump.silent hdump.ok.unhash).silent (hdump.ok.unhash.ok.inhash ha)
  have hcache : (((t.dump a).1.unhash a).inhash a (haship ip)).cache = (t.dump a).1.cache := by
    rw [inhash_cache, unhash_cache]
  rw [← hcache] at hnil
  generalize ((t.dump a).1.unhash a).inhash a (haship ip) = u at *
  have hmod : Loses t (u.mod a fun x =>
      { x with
        ip := ip
        utime := w.now
        ctime := 0
        type := w.medium ifc
        rtime := w.now + ReTransTimer
        rxtsrem := MAX_MULTICAST_SOLICIT
        ifc := some ifc
        ifcid := w.ifcid ifc }) (t.dump a).2 := hin.silent (hin.ok.mod rfl (.inl rfl))
  split
  · have hend := hmod.silent (hmod.ok.atend ha)
    refine ⟨hend.silent hend.ok.endrxt, ?_, trivial⟩
    rw [endrxt_cache, addrxt_cache, unrxt_cache, mod_self]
    exact hnil
  · refine ⟨hmod.silent hmod.ok.endrxt, ?_, trivial⟩
    rw [endrxt_cache, mod_self]
    exact hnil

theorem cleanarpent_loses (h : Ok t) (ha : (t.cache a).hold = []) :
    Loses t (t.cleanarpent a) [] := by
  have hmod : Loses t (t.mod a fun x =>
      { x with utime := 0, ctime := 0, type := none, state := .UNUSED }) [] := h.mod rfl (.inr ha)
  have hnil : ((t.mod a fun x =>
      { x with utime := 0, ctime := 0, type := none, state := .UNUSED }).cache a).hold = [] := by
    rw [mod_self]
    exact ha
  unfold Arp.cleanarpent
  simp only
  generalize (t.mod a fun x =>
    { x with utime := 0, ctime := 0, type := none, state := .UNUSED }) = u at *
  have hout : Loses t (((u.unhash a).unrxt a).endrxt a) [] :=
    ((hmod.silent hmod.ok.unhash).silent hmod.ok.unhash.ok.unrxt).silent
      hmod.ok.unhash.ok.unrxt.ok.endrxt
  have hcache : (((u.unhash a).unrxt a).endrxt a).cache = u.cache := by
    rw [endrxt_cache, unrxt_cache, unhash_cache]
  rw [← hcache] at hnil
  generalize ((u.unhash a).unrxt a).endrxt a = v at *
  have hend := hout.silent (hout.ok.endlink (a := a))
  exact hend.silent (hend.ok.mod hnil.symm (.inr hnil))

/-- A packet is put on the hold list of an entry that waits. -/
theorem Ok.put (h : Ok t) (ha : a < NCACHE) (hwait : (t.cache a).state = .AWAIT) (bp : Option B)
    (hnew : ∀ b ∈ bp, t.blocks b = 0) :
    Ok (t.mod a fun x => { x with hold := x.hold ++ bp.toList }) ∧
      ∀ b, (t.mod a fun x => { x with hold := x.hold ++ bp.toList }).blocks b =
        t.blocks b + bp.toList.count b := by
  have hblocks : ∀ b, (t.mod a fun x => { x with hold := x.hold ++ bp.toList }).blocks b =
      t.blocks b + bp.toList.count b := by
    intro b
    have hm := blocks_mod (t := t) (f := fun x => { x with hold := x.hold ++ bp.toList }) ha b
    dsimp only at hm
    rw [List.count_append] at hm
    omega
  refine ⟨⟨h.within.same .mod, fun c hc => ?_, h.tidy, fun b => ?_⟩, hblocks⟩
  · rw [mod_cache] at hc ⊢
    split at hc
    · exact absurd hwait hc
    · rename_i hca
      rw [if_neg hca]
      exact h.quiet c hc
  · rw [hblocks]
    cases bp with
    | none => exact h.once b
    | some c =>
      have hc := hnew c rfl
      have h1 := h.once b
      change t.blocks b + [c].count b ≤ 1
      rw [List.count_singleton]
      split
      · rename_i hcb
        rw [← eq_of_beq hcb, hc]
      · exact h1

variable [DecidableEq M]

/-- What `arpget` has done: the packet is in the cache when it returns the entry. -/
structure Got (t t' : Arp I M B) (bp : Option B) (got : Arp.Got) (freed : List B) : Prop where
  ok : Ok t'
  wait : ∀ a, got = .wait a → a < NCACHE ∧
    ∀ b, t'.blocks b + freed.count b = t.blocks b + bp.toList.count b
  mac : ∀ m, got = .mac m → ∀ b, t'.blocks b + freed.count b = t.blocks b

omit [DecidableEq M] in
/-- With an entry that was found, or made. -/
theorem Loses.got {fr : List B} (h : Loses t t' fr) (ha : a < NCACHE) (bp : Option B) (mac : List UInt8)
    (hnew : ∀ b ∈ bp, t.blocks b = 0) (test : Prop) [Decidable test] :
    Got t
      (if (t'.cache a).state = .AWAIT then
        (t'.mod a fun x => { x with hold := x.hold ++ bp.toList }, Arp.Got.wait a, fr)
      else (if test then t'.cleanarpent a else t', Arp.Got.mac mac, fr)).1 bp
      (if (t'.cache a).state = .AWAIT then
        (t'.mod a fun x => { x with hold := x.hold ++ bp.toList }, Arp.Got.wait a, fr)
      else (if test then t'.cleanarpent a else t', Arp.Got.mac mac, fr)).2.1
      (if (t'.cache a).state = .AWAIT then
        (t'.mod a fun x => { x with hold := x.hold ++ bp.toList }, Arp.Got.wait a, fr)
      else (if test then t'.cleanarpent a else t', Arp.Got.mac mac, fr)).2.2 := by
  by_cases hwait : (t'.cache a).state = .AWAIT
  · have hv : ∀ b ∈ bp, t'.blocks b = 0 := by
      intro b hb
      have h1 := h.count b
      have h2 := hnew b hb
      omega
    obtain ⟨hok, hblocks⟩ := h.ok.put ha hwait bp hv
    simp only [if_pos hwait]
    refine ⟨hok, fun c hc => ?_, fun m hm => ?_⟩
    · cases hc
      refine ⟨ha, fun b => ?_⟩
      have h1 := h.count b
      rw [hblocks b]
      omega
    · cases hm
  · simp only [if_neg hwait]
    refine ⟨?_, fun c hc => ?_, fun m _ => ?_⟩
    · split
      · exact (cleanarpent_loses h.ok (h.ok.quiet a hwait)).ok
      · exact h.ok
    · cases hc
    · split
      · exact (h.silent (cleanarpent_loses h.ok (h.ok.quiet a hwait))).count
      · exact h.count

theorem arpget_got (h : Ok t) (w : World I M) (bp : Option B) (dest : Dest) (ifc : I)
    (hnew : ∀ b ∈ bp, t.blocks b = 0) :
    Got t (t.arpget w bp dest ifc).1 bp (t.arpget w bp dest ifc).2.1
      (t.arpget w bp dest ifc).2.2 := by
  unfold Arp.arpget
  simp only
  cases hf : t.find dest.ip fun x => decide (w.medium ifc = x.type) with
  | some a =>
    have hsame : Loses t (t.mod a fun x => { x with utime := w.now }) [] := h.mod rfl (.inl rfl)
    exact hsame.got (h.within.find hf) bp _ hnew _
  | none =>
    obtain ⟨hl, hnil, ha⟩ := newarp6_loses h w dest.ip ifc dest.isV6
    rw [← ha] at hnil
    have hlt : (t.newarp6 w dest.ip ifc dest.isV6).2.1 < NCACHE := by
      rw [ha]
      exact oldest_lt
    generalize t.newarp6 w dest.ip ifc dest.isV6 = new at *
    obtain ⟨u, a, fr⟩ := new
    dsimp only at *
    have hawait := hl.silent (hl.ok.mod (f := fun x => { x with state := .AWAIT }) rfl (.inr hnil))
    have hutime := hawait.silent (hawait.ok.mod (a := a) (f := fun x => { x with utime := w.now })
      rfl (.inl rfl))
    exact hutime.got hlt bp _ hnew _

omit [DecidableEq M] in
/-- The packets that wait are sent. -/
theorem arpresolve_loses (h : Ok t) (w : World I M) (ha : a < NCACHE) (type : M)
    (mac : List UInt8) :
    Loses t (t.arpresolve w a type mac).1 (t.arpresolve w a type mac).2 := by
  unfold Arp.arpresolve
  simp only
  split
  · exact h.take ha rfl
  · have hout := h.unrxt (a := a)
    have htake := hout.ok.take ha (f := fun x => { x with
      mac := Arp.setmac x.mac mac (w.maclen type)
      type := some type
      state := .AOK
      utime := w.now
      hold := [] }) rfl
    rw [unrxt_cache] at htake
    exact hout.trans htake

theorem arpenter_loses (h : Ok t) (w : World I M) (dest : Dest) (route : Option I)
    (mac : List UInt8) (n : Nat) (refresh : Bool) :
    Loses t (t.arpenter w dest route mac n refresh).1
      ((t.arpenter w dest route mac n refresh).2.1 ++
        (t.arpenter w dest route mac n refresh).2.2) := by
  have hsame : Loses t t ([] ++ []) := ⟨h, fun b => by rw [List.append_nil, List.count_nil, Nat.add_zero]⟩
  unfold Arp.arpenter
  split
  · exact hsame
  · split
    · exact hsame
    · rename_i ifc
      simp only
      split
      · rename_i a hf
        have ha := h.within.find hf
        rw [List.append_nil]
        split
        · rw [unrxt_mod, mod_mod]
          have hout := h.unrxt (a := a)
          have htake := hout.ok.take ha (f := (fun x => { x with
            ifc := some ifc
            ifcid := w.ifcid ifc
            hold := []
            utime := w.now
            ctime := w.now }) ∘ fun x => { x with
            state := .AOK, mac := Arp.setmac x.mac mac ((w.medium ifc).elim 0 w.maclen) }) rfl
          rw [unrxt_cache] at htake
          exact hout.trans htake
        · rw [mod_mod]
          exact h.take ha rfl
      · split
        · exact hsame
        · obtain ⟨hl, hnil, ha⟩ := newarp6_loses h w dest.ip ifc false
          rw [← ha] at hnil
          generalize t.newarp6 w dest.ip ifc false = new at *
          obtain ⟨u, a, fr⟩ := new
          dsimp only at *
          exact hl.silent (hl.ok.mod rfl (.inr hnil))

omit [DecidableEq M] in
/-- When there are no drops. -/
theorem flush_loses (h : Ok t) (hd : t.dropf = []) : Loses t t.flush.1 t.flush.2 := by
  have hblocks : ∀ b, t.flush.1.blocks b = 0 := by
    intro b
    unfold Arp.blocks
    change (List.map (fun _ => List.count b []) (List.range NCACHE)).sum + List.count b [] = 0
    rw [List.count_nil, List.map_const', List.sum_replicate, Nat.nsmul_eq_mul, Nat.mul_zero]
  refine ⟨⟨⟨?_, ?_, ?_, ?_⟩, fun _ _ => rfl, rfl, fun b => ?_⟩, fun b => ?_⟩
  · intro a b hb
    cases hb
  · exact h.within.nextrxt
  · intro a b hb
    cases hb
  · intro b hb
    cases hb
  · rw [hblocks]
    exact Nat.zero_le 1
  · rw [hblocks, Nat.zero_add]
    unfold Arp.blocks Arp.flush
    simp only
    rw [hd, List.count_nil, Nat.add_zero, List.count_flatMap]
    rfl

omit [DecidableEq M] [DecidableEq B] in
/-- The entry that `del` takes out. -/
theorem del_found (t : Arp I M B) (ip : IPaddr) :
    (walk t.link (fun f => (t.cache f).ip == ip) NCACHE none (t.hash (haship ip))).2 =
      t.find ip fun _ => true := by
  unfold Arp.find
  simp only [Bool.and_true]

omit [DecidableEq M] in
/-- When the entry holds nothing. -/
theorem del_loses (h : Ok t) (ip : IPaddr)
    (hgood : ∀ a, t.find ip (fun _ => true) = some a → (t.cache a).hold = []) :
    Loses t (t.del ip) [] := by
  have hfound := del_found t ip
  unfold Arp.del
  simp only
  rcases hw : walk t.link (fun f => (t.cache f).ip == ip) NCACHE none (t.hash (haship ip))
    with ⟨l, _ | a⟩
  · exact ⟨h, fun b => by rw [List.count_nil, Nat.add_zero]⟩
  · rw [hw] at hfound
    have hnil := hgood a hfound.symm
    dsimp only
    have hout : Loses t { t with
        link := relink t.link l (t.link a)
        hash := rehead t.hash (haship ip) l (t.link a) } [] :=
      h.keep ⟨relink_within h.within.link (h.within.link a), h.within.nextrxt,
        rehead_within h.within.hash (h.within.link a), h.within.rxmt⟩
        (fun _ => rfl) (fun _ => rfl) rfl rfl
    have hcache : t.cache = ({ t with
        link := relink t.link l (t.link a)
        hash := rehead t.hash (haship ip) l (t.link a) } : Arp I M B).cache := rfl
    rw [hcache] at hnil
    generalize ({ t with
        link := relink t.link l (t.link a)
        hash := rehead t.hash (haship ip) l (t.link a) } : Arp I M B) = u at *
    have hend := (hout.silent (hout.ok.unrxt (a := a))).silent (hout.ok.unrxt.ok.endrxt (a := a))
    have hlink := hend.silent (hend.ok.endlink (a := a))
    have hvnil : (((u.unrxt a).endrxt a).cache a).hold = [] := by
      rw [endrxt_cache, unrxt_cache]
      exact hnil
    exact hlink.silent (hlink.ok.mod hvnil.symm (.inr hvnil))

/-! ## The drops of `rxmitsols` -/

omit [DecidableEq M] in
theorem Ok.takedrops (h : Ok t) : Loses t t.takedrops.1 t.takedrops.2 := by
  have hcount : ∀ b, t.takedrops.1.blocks b + t.takedrops.2.count b = t.blocks b := by
    intro b
    have hb := blocks_drops (t := t) (d := []) (o := none) b
    rw [List.count_nil, Nat.add_zero] at hb
    exact hb
  refine ⟨⟨⟨h.within.link, h.within.nextrxt, h.within.hash, h.within.rxmt⟩, h.quiet, rfl,
    fun b => ?_⟩, hcount⟩
  have h1 := hcount b
  have h2 := h.once b
  omega

omit [DecidableEq M] in
theorem hang_takedrops (t : Arp I M B) (xp : List B) : (t.hang xp).takedrops.1 = t.takedrops.1 := by
  unfold Arp.hang
  split
  · rfl
  · split <;> rfl

section
omit [DecidableEq M] [DecidableEq B]

theorem unhash_takedrops (t : Arp I M B) (a : Nat) :
    (t.unhash a).takedrops = (t.takedrops.1.unhash a, t.dropf) := by
  have htake : walk t.takedrops.1.link (fun f => f == a) NCACHE none
      (t.takedrops.1.hash (haship (t.takedrops.1.cache a).ip)) =
        walk t.link (fun f => f == a) NCACHE none (t.hash (haship (t.cache a).ip)) := rfl
  unfold Arp.unhash
  simp only
  rw [htake]
  rcases walk t.link (fun f => f == a) NCACHE none (t.hash (haship (t.cache a).ip))
    with ⟨l, _ | c⟩ <;> rfl

theorem unrxt_takedrops (t : Arp I M B) (a : Nat) :
    (t.unrxt a).takedrops = (t.takedrops.1.unrxt a, t.dropf) := by
  have htake : walk t.takedrops.1.nextrxt (fun f => f == a) NCACHE none t.takedrops.1.rxmt =
      walk t.nextrxt (fun f => f == a) NCACHE none t.rxmt := rfl
  unfold Arp.unrxt
  rw [htake]
  rcases walk t.nextrxt (fun f => f == a) NCACHE none t.rxmt with ⟨l, _ | c⟩ <;> rfl

theorem cleanarpent_takedrops (t : Arp I M B) (a : Nat) :
    (t.cleanarpent a).takedrops = (t.takedrops.1.cleanarpent a, t.dropf) := by
  have hmod : ∀ {u : Arp I M B} {f : Arpent I M B → Arpent I M B},
      (u.mod a f).takedrops = (u.takedrops.1.mod a f, u.dropf) := rfl
  have hend : ∀ {u : Arp I M B}, (u.endrxt a).takedrops = (u.takedrops.1.endrxt a, u.dropf) := rfl
  have hlink : ∀ {u : Arp I M B},
      ({ u with link := update u.link a none } : Arp I M B).takedrops =
        ({ u.takedrops.1 with link := update u.takedrops.1.link a none }, u.dropf) := rfl
  unfold Arp.cleanarpent
  simp only
  rw [hmod, hlink, hend, unrxt_takedrops, unhash_takedrops, hmod]
  change _ = (_, t.dropf)
  rw [Prod.mk.injEq]
  refine ⟨rfl, ?_⟩
  change ((Arp.unhash _ a).unrxt a).dropf = t.dropf
  rw [unrxt_drops.1, unhash_drops.1]
  rfl

end

omit [DecidableEq M] in
theorem rxmitloop_none (w : World I M) (fuel : Nat) (t : Arp I M B) (ifc : Option I)
    (taken : List I) : t.rxmitloop w fuel none ifc taken = (t, .drops ifc, taken) := by
  cases fuel <;> rfl

omit [DecidableEq M] [DecidableEq B] in
/-- The link by which the loop goes on is gone. -/
theorem cleanarpent_nextrxt (t : Arp I M B) (a : Nat) : (t.cleanarpent a).nextrxt a = none := by
  unfold Arp.cleanarpent
  exact update_self _ _ _

/-- The entry that `rxmitsols` starts with. -/
def Arp.due (t : Arp I M B) (w : World I M) : Option Nat :=
  t.rxmt.filter fun a =>
    !decide ((3 * ReTransTimer / 4).toInt32 < ((t.cache a).rtime - w.now).toInt32)

/-- The entry has an interface, that is not locked in vain. -/
def Arp.Ready (t : Arp I M B) (w : World I M) : Prop :=
  match t.due w with
  | none => t.dropf = []
  | some a => ∃ ifc, (t.cache a).ifc = some ifc ∧
      ((t.cache a).rxtsrem ≠ 0 → w.canrlock ifc = true → (t.cache a).ifcid = w.ifcid ifc)

/-- What the first part of `rxmitsols` does: the drops can be sent, or a solicitation. -/
inductive Firstly (t : Arp I M B) : Arp I M B × Arp.First I × List I → Prop where
  | drops (t' : Arp I M B) (ifc : Option I) : Loses t t'.takedrops.1 t'.takedrops.2 →
      (ifc = none → t'.takedrops.2 = []) → Firstly t (t', .drops ifc, [])
  | send (a : Nat) (ifc : I) : a < NCACHE → Firstly t (t, .send a ifc, [])

omit [DecidableEq M] in
theorem rxmitfirst_firstly (h : Ok t) (w : World I M) (hready : t.Ready w) :
    Firstly t (t.rxmitfirst w) := by
  unfold Arp.Ready Arp.due at hready
  unfold Arp.rxmitfirst
  cases hx : t.rxmt with
  | none =>
    rw [hx] at hready
    exact .drops t none h.takedrops fun _ => hready
  | some a =>
    rw [hx] at hready
    simp only [Option.filter_some] at hready
    dsimp only
    split
    · rename_i hlate
      rw [if_neg (by simpa using hlate)] at hready
      exact .drops t none h.takedrops fun _ => hready
    · rename_i hlate
      rw [if_pos (by simpa using hlate)] at hready
      obtain ⟨ifc, hifc, hid⟩ := hready
      have ha := h.within.rxmt a hx
      rw [Arp.rxmitloop, hifc]
      dsimp only
      split
      · exact .send a ifc ha
      · rename_i hno
        have hlocked : ¬ ((t.cache a).rxtsrem ≠ 0 ∧ w.canrlock ifc = true) := fun hl =>
          hno ⟨hl, hid hl.1 hl.2⟩
        rw [if_neg hlocked, cleanarpent_nextrxt, rxmitloop_none]
        refine .drops _ (some ifc) ?_ fun hn => by cases hn
        have htake : Loses t (t.mod a fun x => { x with hold := [] }) (t.cache a).hold :=
          h.take ha rfl
        have hnil : ((t.mod a fun x => { x with hold := [] }).cache a).hold = [] := by rw [mod_self]
        rw [cleanarpent_takedrops]
        generalize (t.mod a fun x => { x with hold := [] }) = u at *
        have hdrop := htake.ok.takedrops
        have hclean := hdrop.silent (cleanarpent_loses (a := a) hdrop.ok hnil)
        have hall := htake.trans hclean
        have hhang : (if (t.cache a).hold = [] then u else u.hang (t.cache a).hold).dropf =
            u.dropf ++ (t.cache a).hold := by
          split
          · rename_i hx
            rw [hx, List.append_nil]
          · exact hang_dropf htake.ok.tidy htake.ok.nodup _
        have htaken : (if (t.cache a).hold = [] then u else u.hang (t.cache a).hold).takedrops.1 =
            u.takedrops.1 := by
          split
          · rfl
          · exact hang_takedrops u _
        rw [hhang, htaken]
        refine ⟨hall.ok, fun b => ?_⟩
        have hb := hall.count b
        rw [List.count_append] at hb
        change (u.takedrops.1.cleanarpent a).blocks b + (u.dropf ++ (t.cache a).hold).count b = _
        rw [List.count_append, Nat.add_comm (u.dropf.count b)]
        exact hb

omit [DecidableEq M] in
theorem rxmitagain_loses (h : Ok t) (w : World I M) (ha : a < NCACHE) :
    Loses t (t.rxmitagain w a) [] := by
  have hend := h.atend ha
  have hmod := hend.silent (hend.ok.mod (a := a)
    (f := fun x => { x with rxtsrem := x.rxtsrem - 1, rtime := w.now + ReTransTimer })
    rfl (.inl rfl))
  exact hmod.silent hmod.ok.endrxt

end NixMark.Ares
