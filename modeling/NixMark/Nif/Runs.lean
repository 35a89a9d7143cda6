import NixMark.Nif.Multi

/-!
# The modes of an interface follow its files

* `Follows`: counts, references and what the device is told are those of the open files.
* `Good`: no open ends for want of permission, no request is repeated or undone by another file, and
  a file that is closed holds no address but the first of the list.
* `modes_follow`: then this holds in every run; `address_left`: the loop of the last close looks at
  one bit only.
-/

namespace NixMark.Nif

open Lib
open Function (update update_apply update_of_ne)

variable {U A : Type} {s s' : Sys U A} {eve : U}

structure Follows (s : Sys U A) : Prop where
  prom : s.nif.prom = opened s.nif s.chans promiscuous
  scan : s.nif.scan = opened s.nif s.chans scanning
  all : s.nif.all = opened s.nif s.chans alltypes
  holds : ∀ i a, s.held i a = true → 0 < s.chans i
  refs : ∀ ap ∈ s.nif.maddr, ap.ref = holders s.nif.nfile s.held ap.addr
  told : ∀ a, s.nif.receives a = true ↔ 0 < holders s.nif.nfile s.held a

structure Inv (s : Sys U A) : Prop where
  modes : Modes s.nif s.chans
  multi : Multi s.nif s.held
  holds : ∀ i a, s.held i a = true → 0 < s.chans i

theorem Inv.follows (h : Inv s) : Follows s :=
  ⟨h.modes.prom, h.modes.scan, h.modes.all, h.holds, h.multi.refs, h.multi.told⟩

variable [DecidableEq U] [DecidableEq A]

def Good (eve : U) (s : Sys U A) : Event U A → Prop
  | .open user id omode _ => Permitted s.nif eve user id omode
  | .ctl id (.connect type) => s.nif.typeinuse type = false → ∀ f, s.nif.f id = some f → 0 ≤ f.type
  | .ctl id (.addmulti (some addr)) => s.nif.multicast = true →
      s.nif.index addr < NBITS ∧ ∀ f, s.nif.f id = some f → f.maddr (s.nif.index addr) = false
  | .ctl id (.remmulti (some addr)) => ∀ f ap, s.nif.f id = some f →
      s.nif.maddr[s.nif.index addr]? = some ap → ap.ref ≠ 0 → f.maddr (s.nif.index addr) = true
  | .close id => ∀ f, s.nif.f id = some f → f.inuse = 1 → ∀ k ≠ 0, f.maddr k = false
  | _ => True

theorem Inv.opens (h : Inv s) {user : U} {id : Option Nat} {omode : Nat} {mem : Bool}
    (hg : Permitted s.nif eve user id omode)
    (ha : s.act eve (.open user id omode mem) = some s') : Inv s' := by
  simp only [Sys.act] at ha
  cases ho : s.nif.netifopen eve user id omode mem with
  | mk nif r =>
    rw [ho] at ha
    rcases netifopen_ok h.modes hg ho with ⟨e, rfl, rfl⟩ | ⟨i, f', rfl, rfl, hlt, hr⟩
    · cases ha
      exact h
    · cases ha
      refine ⟨h.modes.reopen hlt hr, ?_, fun j a hj => ?_⟩
      · refine h.multi.congr rfl rfl rfl rfl (fun j g hg => ?_) (fun j g hg f₀ hf₀ => ?_)
          fun j g hg => ?_
        · change update s.nif.f i (some f') j = some g at hg
          rw [update_apply] at hg
          split at hg
          · rename_i hj
            exact hj ▸ hlt
          · exact h.multi.low j g hg
        · change update s.nif.f i (some f') j = some g at hg
          rw [update_apply] at hg
          split at hg
          · rename_i hj
            rw [hj] at hf₀
            rw [hf₀, ← Option.some.inj hg]
            exact ⟨hr.maddr, hr.nmaddr⟩
          · rw [hg] at hf₀
            rw [hf₀]
            exact ⟨rfl, rfl⟩
        · change ∃ g', update s.nif.f i (some f') j = some g'
          rw [update_apply]
          split
          · exact ⟨_, rfl⟩
          · exact ⟨g, hg⟩
      · have hpos := h.holds j a hj
        change 0 < update s.chans i (s.chans i + 1) j
        rw [update_apply]
        split
        · exact Nat.succ_pos _
        · exact hpos

section
omit [DecidableEq U]

theorem netmulti_error {nif : Netif U A} {id : Nat} {addr : A} {add : Bool}
    (h : nif.multicast = false) : nif.netmulti id addr add = (nif, some .nomulti) := by
  unfold Netif.netmulti
  rw [if_pos h]

theorem netmulti_ok {nif : Netif U A} {id : Nat} {addr : A} {add : Bool}
    (h : nif.multicast = true) : (nif.netmulti id addr add).2 = none := by
  unfold Netif.netmulti
  rw [if_neg (by rw [h]; exact Bool.noConfusion)]
  dsimp only
  split
  · rfl
  · rfl
  · rfl
  · split <;> rfl

/-- Messages that are not about addresses. -/
theorem Inv.write (h : Inv s) {id : Nat} (hopen : s.chans id ≠ 0) (msg : Ctl A)
    (hg : ∀ type, msg = .connect type → s.nif.typeinuse type = false →
      ∀ f, s.nif.f id = some f → 0 ≤ f.type)
    (hadd : ∀ a, msg ≠ .addmulti (some a)) (hrem : ∀ a, msg ≠ .remmulti (some a)) :
    Inv { s with nif := (s.nif.netifwrite id msg).1 } := by
  obtain ⟨f, hf⟩ := Option.ne_none_iff_exists'.mp fun hn => hopen (h.modes.file id hn)
  exact ⟨h.modes.write hopen msg hg, h.multi.write hf msg hadd hrem, h.holds⟩

end

theorem Inv.ctl (h : Inv s) {id : Nat} {msg : Ctl A} (hg : Good eve s (.ctl id msg))
    (ha : s.act eve (.ctl id msg) = some s') : Inv s' := by
  simp only [Sys.act] at ha
  split at ha
  · cases ha
  · rename_i hopen
    obtain ⟨f, hf⟩ := Option.ne_none_iff_exists'.mp fun hn => hopen (h.modes.file id hn)
    have hplain : (∀ a, msg ≠ .addmulti (some a)) → (∀ a, msg ≠ .remmulti (some a)) →
        s' = { s with nif := (s.nif.netifwrite id msg).1 } := by
      intro hadd hrem
      split at ha
      · rename_i nif e hres
        cases ha
        rw [hres]
      · rename_i nif hres
        rw [hres]
        split at ha
        · exact absurd rfl (hadd _)
        · exact absurd rfl (hrem _)
        · cases ha
          rfl
    have hmulti : ∀ addr add, s.nif.multicast = true →
        ∃ nif, s.nif.netmulti id addr add = (nif, none) ∧ nif = (s.nif.netmulti id addr add).1 := by
      intro addr add hcap
      exact ⟨_, Prod.ext rfl (netmulti_ok hcap), rfl⟩
    have hholds : ∀ addr on i a, hold s.held id addr on i a = true → 0 < s.chans i := by
      intro addr on i a hh
      by_cases hi : i = id
      · rw [hi]
        exact Nat.pos_of_ne_zero hopen
      · rw [hold_other hi] at hh
        exact h.holds i a hh
    cases msg with
    | connect type =>
      rw [hplain (fun _ hm => by cases hm) (fun _ hm => by cases hm)]
      refine h.write hopen _ (fun t ht hno => ?_) (fun _ hm => by cases hm) (fun _ hm => by cases hm)
      cases ht
      exact hg hno
    | promiscuous =>
      rw [hplain (fun _ hm => by cases hm) (fun _ hm => by cases hm)]
      exact h.write hopen _ (fun _ ht => by cases ht) (fun _ hm => by cases hm) (fun _ hm => by cases hm)
    | scanbs type =>
      rw [hplain (fun _ hm => by cases hm) (fun _ hm => by cases hm)]
      exact h.write hopen _ (fun _ ht => by cases ht) (fun _ hm => by cases hm) (fun _ hm => by cases hm)
    | bridge =>
      rw [hplain (fun _ hm => by cases hm) (fun _ hm => by cases hm)]
      exact h.write hopen _ (fun _ ht => by cases ht) (fun _ hm => by cases hm) (fun _ hm => by cases hm)
    | headersonly =>
      rw [hplain (fun _ hm => by cases hm) (fun _ hm => by cases hm)]
      exact h.write hopen _ (fun _ ht => by cases ht) (fun _ hm => by cases hm) (fun _ hm => by cases hm)
    | other =>
      rw [hplain (fun _ hm => by cases hm) (fun _ hm => by cases hm)]
      exact h.write hopen _ (fun _ ht => by cases ht) (fun _ hm => by cases hm) (fun _ hm => by cases hm)
    | addmulti addr =>
      cases addr with
      | none =>
        cases ha
        exact h
      | some addr =>
        simp only [Netif.netifwrite] at ha
        by_cases hcap : s.nif.multicast = true
        · obtain ⟨nif, hres, hnif⟩ := hmulti addr true hcap
          rw [hres] at ha
          cases ha
          obtain ⟨hk, hno⟩ := hg hcap
          have hadd := h.multi.add addr hf hcap hk (hno f hf)
          rw [← hnif] at hadd
          exact ⟨hnif ▸ h.modes.apart .netmulti, hadd, hholds addr true⟩
        · rw [netmulti_error (Bool.not_eq_true _ ▸ hcap)] at ha
          cases ha
          exact h
    | remmulti addr =>
      cases addr with
      | none =>
        cases ha
        exact h
      | some addr =>
        simp only [Netif.netifwrite] at ha
        by_cases hcap : s.nif.multicast = true
        · obtain ⟨nif, hres, hnif⟩ := hmulti addr false hcap
          rw [hres] at ha
          cases ha
          have hrem := h.multi.remove addr hf hcap fun ap hap hz => hg f ap hf hap hz
          rw [← hnif] at hrem
          exact ⟨hnif ▸ h.modes.apart .netmulti, hrem, hholds addr false⟩
        · rw [netmulti_error (Bool.not_eq_true _ ▸ hcap)] at ha
          cases ha
          exact h

theorem Inv.close (h : Inv s) {id : Nat} (hg : Good eve s (.close id))
    (ha : s.act eve (.close id) = some s') : Inv s' := by
  simp only [Sys.act] at ha
  split at ha
  · cases ha
  · rename_i hopen
    cases ha
    obtain ⟨f, hf⟩ := Option.ne_none_iff_exists'.mp fun hn => hopen (h.modes.file id hn)
    have hinuse := h.modes.inuse id f hf
    have hone : f.inuse = 1 ↔ s.chans id = 1 := by omega
    refine ⟨h.modes.close hopen, ?_, fun i a hi => ?_⟩
    · have hmulti := h.multi.close hf (hg f hf)
      simp only [hone] at hmulti
      exact hmulti
    · change 0 < update s.chans id (s.chans id - 1) i
      by_cases hlast : s.chans id = 1
      · dsimp only at hi
        rw [if_pos hlast, update_apply] at hi
        split at hi
        · cases hi
        · rename_i hid
          rw [update_of_ne hid]
          exact h.holds i a hi
      · dsimp only at hi
        rw [if_neg hlast] at hi
        rw [update_apply]
        split
        · omega
        · exact h.holds i a hi

theorem inv_inductive : ((netif U A eve).restrict (Good eve)).Inductive Inv where
  init s h := by
    obtain ⟨hf, hmaddr, -, hprom, hscan, hall, hrec, hchans, hheld⟩ := h
    have hfile : ∀ i f, ¬ s.nif.f i = some f := by
      intro i f hi
      rw [hf] at hi
      cases hi
    have hopened : ∀ p, opened s.nif s.chans p = 0 := by
      intro p
      refine List.countP_eq_zero.mpr fun i _ hi => ?_
      unfold isopen at hi
      rw [hf, Option.any_none, Bool.and_false] at hi
      cases hi
    have hholders : ∀ a, holders s.nif.nfile s.held a = 0 := by
      intro a
      refine List.countP_eq_zero.mpr fun i _ hi => ?_
      rw [hheld] at hi
      cases hi
    refine ⟨⟨fun i _ => hchans i, fun i f hi => absurd hi (hfile i f),
        fun i f hi => absurd hi (hfile i f), fun i f hi => absurd hi (hfile i f), ?_, ?_, ?_⟩,
      ⟨fun i f hi => absurd hi (hfile i f), fun i f _ hi => absurd hi (hfile i f),
        fun i f hi => absurd hi (hfile i f), fun i a ha => ?_, ?_, ?_, fun _ => hmaddr,
        fun ap hap => ?_, fun a => ?_⟩, fun i a ha => ?_⟩
    · rw [hprom, hopened]
      rfl
    · rw [hscan, hopened]
      rfl
    · rw [hall, hopened]
      rfl
    · rw [hheld] at ha
      cases ha
    · rw [hmaddr]
      exact List.nodup_nil
    · rw [hmaddr]
      exact Nat.zero_le _
    · rw [hmaddr] at hap
      cases hap
    · rw [hrec, hholders]
      exact ⟨fun hh => (by cases hh), fun hh => (by cases hh)⟩
    · rw [hheld] at ha
      cases ha
  step s e s' h hs := by
    obtain ⟨hs, hg⟩ := hs
    cases e with
    | «open» user id omode mem => exact h.opens hg hs
    | ctl id msg => exact h.ctl hg hs
    | close id => exact h.close hg hs

/-- The counts, the references and what the device receives follow the open files. -/
theorem modes_follow (h : ((netif U A eve).restrict (Good eve)).Reach s) : Follows s :=
  (inv_inductive.reach h).follows

/-! ## One user and two addresses -/

private def ether : Sys Unit Bool where
  nif :=
    { nfile := 1
      f := fun _ => none
      maddr := []
      nmaddr := 0
      prom := 0
      scan := 0
      all := 0
      multicast := true
      receives := fun _ => false }
  chans _ := 0
  held _ _ := false

theorem ether_init : (netif Unit Bool ()).init ether :=
  ⟨fun _ => rfl, rfl, rfl, rfl, rfl, rfl, fun _ => rfl, fun _ => rfl, fun _ _ => rfl⟩

/-- A file is opened and adds an address. -/
private def joins : List (Event Unit Bool) := [.open () none 2 true, .ctl 0 (.addmulti (some true))]

private def goodly (s : Sys Unit Bool) (e : Event Unit Bool) : Option (Sys Unit Bool) :=
  match e with
  | .open () none 2 true => s.act () e
  | .ctl 0 (.addmulti (some true)) =>
    if s.nif.maddr.isEmpty = true ∧ (s.nif.f 0).all (fun f => f.maddr 0 == false) = true then
      s.act () e
    else none
  | _ => none

theorem goodly_step (s : Sys Unit Bool) (e : Event Unit Bool) (s' : Sys Unit Bool)
    (h : goodly s e = some s') : ((netif Unit Bool ()).restrict (Good ())).step s e s' := by
  unfold goodly at h
  split at h
  · have hno : 2 % 4 ≠ 3 := by decide
    exact ⟨h, hno⟩
  · obtain ⟨⟨hl, hf⟩, h⟩ := Option.ite_none_right_eq_some.mp h
    have hindex : s.nif.index true = 0 := by
      unfold Netif.index
      rw [List.isEmpty_iff.mp hl]
      rfl
    refine ⟨h, fun _ => ?_⟩
    rw [hindex]
    refine ⟨by decide, fun f hf0 => ?_⟩
    rw [hf0] at hf
    exact eq_of_beq hf
  · cases h

theorem modes_follow_joins : ∃ s : Sys Unit Bool,
    ((netif Unit Bool ()).restrict (Good ())).Reach s ∧ s.nif.receives true = true ∧ Follows s := by
  obtain ⟨s, hs⟩ : ∃ s, joins.foldlM goodly ether = some s := ⟨_, rfl⟩
  have hreach := Lts.Reach.exec goodly_step ⟨[], .init ether_init⟩ hs
  refine ⟨s, hreach, ?_, modes_follow hreach⟩
  cases hs
  rfl

/-- A file that holds two addresses is closed. -/
theorem address_left : ∃ s : Sys Unit Bool, (netif Unit Bool ()).Reach s ∧ (∀ i, s.chans i = 0) ∧
    s.nif.receives false = true ∧ ¬ Follows s := by
  obtain ⟨s, hs⟩ : ∃ s, (joins ++ [Event.ctl 0 (.addmulti (some false)), .close 0]).foldlM
      (fun (s : Sys Unit Bool) e => s.act () e) ether = some s := ⟨_, rfl⟩
  have hreach : (netif Unit Bool ()).Reach s :=
    Lts.Reach.exec (fun _ _ _ h => h) ⟨[], .init ether_init⟩ hs
  cases hs
  refine ⟨_, hreach, fun i => ?_, rfl, fun h => ?_⟩
  · by_cases hi : i = 0
    · rw [hi]
      rfl
    · exact (Function.update_of_ne hi _ _).trans (Function.update_of_ne hi _ _)
  · have hpos := (h.told false).mp rfl
    exact absurd hpos (by decide)

end NixMark.Nif
