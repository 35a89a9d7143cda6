import NixMark.Ares.Lists
import NixMark.Ares.Sys

/-!
# The lists of the cache stay consistent

* `Consistent`: hash chains, the retransmission list, and who is on it.
* `Good`: an entry that is recycled is not on the retransmission list, or goes to its end; no
  solicitation is sent for a v4 address; an entry that is put back there is still on it.
* `arp_consistent`, `arp_stray`.
-/

namespace NixMark.Ares

open Lib Ip

variable {I M B : Type} [DecidableEq M] [DecidableEq B]
  {t t' : Arp I M B} {H : Nat → List Nat} {R : List Nat} {a b : Nat}

/-- It is on the hash chain of its address. -/
def Arp.hashed (t : Arp I M B) (a : Nat) : Prop :=
  Follows t.link (t.hash (haship (t.cache a).ip)) a

structure Consistent (t : Arp I M B) : Prop where
  chains : ∀ k, ∃ l, Chain t.link (t.hash k) l ∧ l.Nodup
  home : ∀ k a, Follows t.link (t.hash k) a → haship (t.cache a).ip = k
  list : ∃ l, Chain t.nextrxt t.rxmt l ∧ l.Nodup
  waits : ∀ a, Follows t.nextrxt t.rxmt a ↔ t.hashed a ∧ (t.cache a).state = .AWAIT ∧
    isv4 (t.cache a).ip = false ∧ ipismulticast (t.cache a).ip = false
  entries : ∀ k a, Follows t.link (t.hash k) a → a < NCACHE

/-- The lists of the cache. -/
def Intact (t : Arp I M B) : Prop := ∃ H R, Filed t H R

omit [DecidableEq M] [DecidableEq B] in
theorem Intact.consistent (h : Intact t) : Consistent t := by
  obtain ⟨H, R, h⟩ := h
  have hmem : ∀ k a, Follows t.link (t.hash k) a ↔ a ∈ H k := fun k a =>
    ⟨(h.hash.chain k).mem_of_follows, (h.hash.chain k).follows⟩
  refine ⟨fun k => ⟨H k, h.hash.chain k, h.hash.nodup k⟩, fun k a ha => ?_,
    ⟨R, h.rxmt.chain (), h.rxmt.nodup ()⟩, fun a => ?_, fun k a ha => ?_⟩
  · exact h.home k a ((hmem k a).mp ha)
  · have hR : Follows t.nextrxt t.rxmt a ↔ a ∈ R :=
      ⟨(h.rxmt.chain ()).mem_of_follows, (h.rxmt.chain ()).follows⟩
    rw [hR, h.waits a]
    unfold Arp.hashed
    rw [hmem]
    simp only [Arpent.waits, Bool.and_eq_true, decide_eq_true_eq, Bool.not_eq_true']
    constructor
    · rintro ⟨⟨k, hk⟩, hw⟩
      rw [h.home k a hk]
      exact ⟨hk, hw⟩
    · rintro ⟨hk, hw⟩
      exact ⟨⟨_, hk⟩, hw⟩
  · exact h.hashed k a ((hmem k a).mp ha)

/-! ## The functions -/

theorem isv4_v4tov6 (a b c d : UInt8) : isv4 (v4tov6 a b c d) = true := rfl

omit [DecidableEq M] [DecidableEq B] in
theorem find_some (h : Filed t H R) {ip : IPaddr} {test : Arpent I M B → Bool}
    (hf : t.find ip test = some a) : (∃ k, a ∈ H k) ∧ (t.cache a).ip = ip := by
  obtain ⟨l₁, l₂, hl, hw, -, h₂⟩ := walk_spec (fun f => (t.cache f).ip == ip && test (t.cache f))
    (h.hash.chain (haship ip)) (h.chain_length _)
  unfold Arp.find at hf
  rw [hw] at hf
  have hip := h₂ a hf
  rw [Bool.and_eq_true, beq_iff_eq] at hip
  refine ⟨⟨haship ip, ?_⟩, hip.1⟩
  rw [hl]
  exact List.mem_append_right _ (List.mem_of_mem_head? hf)

omit [DecidableEq M] in
/-- A recycled entry, once its state is set. -/
theorem recycled_filed (h : Filed t H R) (w : World I M) (ip : IPaddr) (ifc : I) (addrxt : Bool)
    (hold : t.oldest ∈ R → (!ipismulticast ip && addrxt) = true)
    {f : Arpent I M B → Arpent I M B} (hip : ∀ x, (f x).ip = x.ip)
    (hwaits : ∀ x, x.ip = ip → (f x).waits = (!ipismulticast ip && addrxt)) :
    Intact ((t.newarp6 w ip ifc addrxt).1.mod t.oldest f) := by
  obtain ⟨-, hrep, hcip, hsame⟩ := newarp6_spec h w ip ifc addrxt hold
  generalize (t.newarp6 w ip ifc addrxt).1 = u at *
  generalize t.oldest = a at *
  have hip' : ((u.mod a f).cache a).ip = ip := by rw [mod_self, hip, hcip]
  have hw : ((u.mod a f).cache a).waits = (!ipismulticast ip && addrxt) := by
    rw [mod_self, hwaits _ hcip]
  have hrep' := hrep.same (SameLinks.mod (a := a) (f := f))
  rw [← hip'] at hrep'
  refine ⟨_, _, h.recycled hrep' (fun b => ?_) fun b hb => ?_⟩
  · rw [hw, hip']
    split
    · rename_i hc
      rw [List.mem_append, List.mem_singleton, h.mem_rxmt]
      simp only [hc, and_true]
      exact or_comm
    · rename_i hc
      have hno : a ∉ R := fun hm => hc (hold hm)
      rw [Bool.not_eq_true] at hc
      rw [hc]
      constructor
      · intro hb
        exact .inr ⟨ne_of_mem_of_not_mem hb hno, hb⟩
      · rintro (⟨-, hf⟩ | hb)
        · cases hf
        · exact hb.2
  · rw [mod_ne hb, hsame b hb]

/-- `arpget` takes an entry of the address, or recycles the oldest one. -/
theorem arpget_intact (h : Intact t) (w : World I M) (bp : Option B) (dest : Dest) (ifc : I)
    (hgood : (t.find dest.ip fun x => decide (w.medium ifc = x.type)) = none →
      (t.onrxt t.oldest = true → dest.isV6 = true ∧ ipismulticast dest.ip = false) ∧
        (dest.isV6 = true → isv4 dest.ip = true → ipismulticast dest.ip = true)) :
    Intact (t.arpget w bp dest ifc).1 := by
  obtain ⟨H, R, h⟩ := h
  unfold Arp.arpget
  simp only
  cases hf : t.find dest.ip fun x => decide (w.medium ifc = x.type) with
  | some a =>
    have hutime : Filed (t.mod a fun x => { x with utime := w.now }) H R := h.aside (.mod rfl rfl)
    dsimp only
    split
    · have hdone : Filed ((t.mod a fun x => { x with utime := w.now }).mod a fun x =>
          { x with hold := x.hold ++ bp.toList }) H R := hutime.aside (.mod rfl rfl)
      exact ⟨_, _, hdone⟩
    · dsimp only
      split
      · exact ⟨_, _, cleanarpent_filed hutime⟩
      · exact ⟨_, _, hutime⟩
  | none =>
    obtain ⟨hrx, hv4⟩ := hgood hf
    have hold : t.oldest ∈ R → (!ipismulticast dest.ip && dest.isV6) = true := by
      intro hm
      obtain ⟨h6, hmc⟩ := hrx (h.toRep.onrxt_iff.mpr hm)
      rw [h6, hmc]
      rfl
    obtain ⟨ha, -, hcip, -⟩ := newarp6_spec h w dest.ip ifc dest.isV6 hold
    have hnew := recycled_filed h w dest.ip ifc dest.isV6 hold (f := fun x => { x with state := .AWAIT })
      (fun _ => rfl) fun x hx => by
        change (true && (!isv4 x.ip && !ipismulticast x.ip)) = _
        rw [hx, Bool.true_and]
        cases dest with
        | V4 a b c d =>
          rw [show isv4 (Dest.V4 a b c d).ip = true from isv4_v4tov6 a b c d]
          simp [Dest.isV6]
        | V6 ip =>
          have hv := hv4 rfl
          cases hmc : ipismulticast (Dest.V6 ip).ip with
          | true => simp
          | false =>
            cases hi : isv4 (Dest.V6 ip).ip with
            | true =>
              rw [hv hi] at hmc
              cases hmc
            | false => simp [Dest.isV6]
    obtain ⟨H', R', hnew⟩ := hnew
    dsimp only
    rw [ha]
    generalize (t.newarp6 w dest.ip ifc dest.isV6).1 = u at *
    generalize t.oldest = a at *
    have hutime : Filed ((u.mod a fun x => { x with state := .AWAIT }).mod a fun x =>
        { x with utime := w.now }) H' R' := hnew.aside (.mod rfl rfl)
    have hdone : Filed (((u.mod a fun x => { x with state := .AWAIT }).mod a fun x =>
        { x with utime := w.now }).mod a fun x => { x with hold := x.hold ++ bp.toList }) H' R' :=
      hutime.aside (.mod rfl rfl)
    rw [if_pos (by rw [mod_self, mod_self])]
    exact ⟨_, _, hdone⟩

omit [DecidableEq M] [DecidableEq B] in
theorem arpresolve_intact (h : Intact t) (w : World I M) (a : Nat) (type : M) (mac : List UInt8) :
    Intact (t.arpresolve w a type mac).1 := by
  obtain ⟨H, R, h⟩ := h
  unfold Arp.arpresolve
  simp only
  split
  · rename_i hv4
    have hno : a ∉ R := by
      intro hm
      have hw := ((h.waits a).mp hm).2
      simp [Arpent.waits, hv4] at hw
    have herase : R.erase a = R := List.erase_of_not_mem hno
    refine ⟨H, R.erase a, h.answered ?_ ?_ ?_ fun b hb => mod_ne hb⟩
    · rw [herase]
      exact h.toRep.same .mod
    · rw [mod_self]
    · rw [mod_self]
      rfl
  · refine ⟨H, R.erase a, h.answered (h.toRep.unrxt.same .mod) ?_ ?_ fun b hb => ?_⟩
    · rw [mod_self, unrxt_cache]
    · rw [mod_self]
      rfl
    · rw [mod_ne hb, unrxt_cache]

theorem arpenter_intact (h : Intact t) (w : World I M) (dest : Dest) (route : Option I)
    (mac : List UInt8) (n : Nat) (refresh : Bool)
    (hgood : ∀ ifc, route = some ifc → n = 6 → refresh = false →
      (t.find dest.ip fun x => decide (x.type = w.medium ifc ∧ x.state ≠ .UNUSED)) = none →
        t.onrxt t.oldest = false) :
    Intact (t.arpenter w dest route mac n refresh).1 := by
  unfold Arp.arpenter
  split
  · exact h
  · rename_i hn
    split
    · exact h
    · rename_i ifc
      simp only
      split
      · rename_i a hf
        obtain ⟨H, R, h⟩ := h
        obtain ⟨-, hip⟩ := find_some h hf
        have haok : Rep (t.mod a fun x => { x with
            state := .AOK, mac := Arp.setmac x.mac mac ((w.medium ifc).elim 0 w.maclen) }) H R :=
          h.toRep.same .mod
        have hself : (t.mod a fun x => { x with
            state := .AOK, mac := Arp.setmac x.mac mac ((w.medium ifc).elim 0 w.maclen) }).cache a = { t.cache a with
            state := .AOK, mac := Arp.setmac (t.cache a).mac mac ((w.medium ifc).elim 0 w.maclen) } :=
          mod_self
        have hne : ∀ b ≠ a, (t.mod a fun x => { x with
            state := .AOK, mac := Arp.setmac x.mac mac ((w.medium ifc).elim 0 w.maclen) }).cache b =
              t.cache b := fun b hb => mod_ne hb
        dsimp only
        generalize (t.mod a fun x => { x with
          state := .AOK, mac := Arp.setmac x.mac mac ((w.medium ifc).elim 0 w.maclen) }) = u at *
        -- the entry is taken off the list, where no v4 entry is
        have hout : ∃ v : Arp I M B, v = (if dest.isV6 then u.unrxt a else u) ∧
            Rep v H (R.erase a) ∧ v.cache = u.cache := by
          cases dest with
          | V6 ip => exact ⟨_, rfl, haok.unrxt, unrxt_cache⟩
          | V4 a₀ b₀ c₀ d₀ =>
            have hno : a ∉ R := by
              intro hm
              have hw := ((h.waits a).mp hm).2
              rw [Arpent.waits, hip, show isv4 (Dest.V4 a₀ b₀ c₀ d₀).ip = true from
                isv4_v4tov6 a₀ b₀ c₀ d₀] at hw
              simp at hw
            rw [List.erase_of_not_mem hno]
            exact ⟨_, rfl, haok, rfl⟩
        obtain ⟨v, hv, hrep, hcache⟩ := hout
        rw [← hv]
        refine ⟨H, R.erase a, h.answered (hrep.same .mod) ?_ ?_ fun b hb => ?_⟩
        · rw [mod_self, hcache, hself]
        · rw [mod_self, hcache, hself]
          rfl
        · rw [mod_ne hb, hcache, hne b hb]
      · rename_i hf
        split
        · exact h
        · rename_i hr
          obtain ⟨H, R, h⟩ := h
          have hno : t.oldest ∉ R := by
            intro hm
            have hoff := hgood ifc rfl (not_not.mp hn) (Bool.not_eq_true _ ▸ hr) hf
            rw [h.toRep.onrxt_iff.mpr hm] at hoff
            cases hoff
          have hold : t.oldest ∈ R → (!ipismulticast dest.ip && false) = true := fun hm =>
            absurd hm hno
          obtain ⟨ha, -⟩ := newarp6_spec h w dest.ip ifc false hold
          dsimp only
          rw [ha]
          refine recycled_filed h w dest.ip ifc false hold (fun _ => rfl) fun x _ => ?_
          rw [Bool.and_false]
          rfl

section
omit [DecidableEq M] [DecidableEq B]

/-- An entry that was found is taken out. -/
theorem del_intact (h : Intact t) (ip : IPaddr) : Intact (t.del ip) := by
  obtain ⟨H, R, h⟩ := h
  obtain ⟨l₁, l₂, hl, hw, -, -⟩ := walk_spec (fun f => (t.cache f).ip == ip)
    (h.hash.chain (haship ip)) (h.chain_length _)
  unfold Arp.del
  simp only
  rw [hw]
  cases l₂ with
  | nil => exact ⟨H, R, h⟩
  | cons a l₂ =>
    have hmem : a ∈ H (haship ip) := by
      rw [hl]
      exact List.mem_append_right _ List.mem_cons_self
    have hno : a ∉ l₁ := by
      have hn := h.hash.nodup (haship ip)
      rw [hl] at hn
      intro ha
      exact (List.nodup_append.mp hn).2.2 a ha a List.mem_cons_self rfl
    have hH : Function.update H (haship ip) (l₁ ++ l₂) = fun k => (H k).erase a := by
      funext k
      by_cases hk : k = haship ip
      · rw [hk, Function.update_self, hl, erase_middle hno]
      · rw [Function.update_of_ne hk]
        exact (List.erase_of_not_mem fun ha => hk (h.hash.apart ha hmem)).symm
    have hout := h.hash.remove hl
    rw [hH] at hout
    dsimp only [List.head?_cons]
    have hrep : Rep { t with
        link := relink t.link l₁.getLast? (t.link a)
        hash := rehead t.hash (haship ip) l₁.getLast? (t.link a) } (fun k => (H k).erase a) R :=
      ⟨hout, h.rxmt, fun k b hb => h.hashed k b (List.mem_of_mem_erase hb), h.listed⟩
    have hout := hrep.unrxt (a := a)
    have hend := (hout.endrxt fun hm => (h.mem_rxmt.mp hm).1 rfl).endlink (a := a) fun k hk =>
      (h.mem_erase.mp hk).1 rfl
    refine ⟨_, _, h.out (hend.same .mod) fun b hb => ?_⟩
    rw [mod_ne hb]
    exact congrFun unrxt_cache b

theorem flush_intact (t : Arp I M B) : Intact t.flush.1 := by
  refine ⟨fun _ => [], [], ⟨⟨⟨fun _ => rfl, fun _ => List.nodup_nil, fun ha => ?_⟩,
    ⟨fun _ => rfl, fun _ => List.nodup_nil, fun ha => ?_⟩, fun _ _ ha => ?_, fun _ ha => ?_⟩,
    fun _ _ ha => ?_, fun a => ?_⟩⟩
  · cases ha
  · cases ha
  · cases ha
  · cases ha
  · cases ha
  · constructor
    · intro ha
      cases ha
    · rintro ⟨⟨_, ha⟩, -⟩
      cases ha

end

omit [DecidableEq M] in
theorem rxmitloop_intact (w : World I M) (fuel : Nat) : ∀ {t : Arp I M B} {a : Option Nat}
    {ifc : Option I} {taken : List I}, Intact t → Intact (t.rxmitloop w fuel a ifc taken).1 := by
  induction fuel with
  | zero => exact fun h => h
  | succ fuel ih =>
    intro t a ifc taken h
    cases a with
    | none => exact h
    | some a =>
      unfold Arp.rxmitloop
      split
      · exact h
      · simp only
        split
        · exact h
        · obtain ⟨H, R, h⟩ := h
          have hmod : Filed (t.mod a fun x => { x with hold := [] }) H R := h.aside (.mod rfl rfl)
          apply ih
          split
          · exact ⟨_, _, cleanarpent_filed hmod⟩
          · exact ⟨_, _, cleanarpent_filed (hmod.aside .hang)⟩

omit [DecidableEq M] in
theorem rxmitfirst_intact (h : Intact t) (w : World I M) : Intact (t.rxmitfirst w).1 := by
  unfold Arp.rxmitfirst
  split
  · exact h
  · split
    · exact h
    · exact rxmitloop_intact w _ h

omit [DecidableEq M] [DecidableEq B] in
/-- An entry that is still on the list is put to its end. -/
theorem rxmitagain_intact (h : Intact t) (w : World I M) (ha : t.onrxt a = true) :
    Intact (t.rxmitagain w a) := by
  obtain ⟨H, R, h⟩ := h
  have hm := h.toRep.onrxt_iff.mp ha
  have hrep := h.toRep.unrxt.append (fun hm' => (h.mem_rxmt.mp hm').1 rfl) (h.listed a hm)
  refine ⟨H, R.erase a ++ [a], ⟨hrep.same ⟨rfl, rfl, rfl, rfl⟩, fun k b hb => ?_, fun b => ?_⟩⟩
  all_goals
    have hcache : ∀ b, ((t.rxmitagain w a).cache b).ip = (t.cache b).ip ∧
        ((t.rxmitagain w a).cache b).state = (t.cache b).state := by
      intro b
      unfold Arp.rxmitagain
      rw [endrxt_cache, mod_cache, addrxt_cache, unrxt_cache]
      split
      · rename_i hba
        rw [hba]
        exact ⟨rfl, rfl⟩
      · exact ⟨rfl, rfl⟩
  · rw [(hcache b).1, h.home k b hb]
  · rw [List.mem_append, List.mem_singleton, h.mem_rxmt]
    have hw : ((t.rxmitagain w a).cache b).waits = (t.cache b).waits := by
      unfold Arpent.waits
      rw [(hcache b).1, (hcache b).2]
    rw [hw, ← h.waits b]
    constructor
    · rintro (⟨-, hb⟩ | rfl)
      · exact hb
      · exact hm
    · intro hb
      by_cases hba : b = a
      · exact .inr hba
      · exact .inl ⟨hba, hb⟩

/-! ## Runs -/

variable {P : Type} [DecidableEq P] [DecidableEq I] {s s' : Sys P I M B}

/-- No call takes an entry that is on the retransmission list for an address that is not solicited,
or solicits a v4 address; `rxmitsols` puts back an entry that is on the list. -/
def Good (s : Sys P I M B) : Event P I M B → Prop
  | .call _ w (.arpget _ dest ifc) =>
    (s.arp.find dest.ip fun x => decide (w.medium ifc = x.type)) = none →
      (s.arp.onrxt s.arp.oldest = true → dest.isV6 = true ∧ ipismulticast dest.ip = false) ∧
        (dest.isV6 = true → isv4 dest.ip = true → ipismulticast dest.ip = true)
  | .call _ w (.arpenter dest route _ n refresh) =>
    ∀ ifc, route = some ifc → n = 6 → refresh = false →
      (s.arp.find dest.ip fun x => decide (x.type = w.medium ifc ∧ x.state ≠ .UNUSED)) = none →
        s.arp.onrxt s.arp.oldest = false
  | .call .. => True
  | .rxmit _ err => err = false → ∀ a ifc, s.rx = .send a ifc → s.arp.onrxt a = true

omit [DecidableEq M] [DecidableEq B] [DecidableEq P] [DecidableEq I] in
theorem qlock_arp (h : s.qlock = some s') : s'.arp = s.arp := by
  unfold Sys.qlock at h
  obtain ⟨-, h⟩ := Option.ite_none_right_eq_some.mp h
  cases h
  rfl

omit [DecidableEq M] [DecidableEq B] [DecidableEq P] in
theorem rlock_arp {taken : List I} : (taken.foldl Sys.rlock s).arp = s.arp := by
  induction taken generalizing s with
  | nil => rfl
  | cons i taken ih => exact ih

theorem Intact.call (h : Intact s.arp) {p : P} {w : World I M} {act : Act I M B}
    (hg : Good s (.call p w act)) (ha : s.act w p act = some s') : Intact s'.arp := by
  cases act with
  | arpget bp dest ifc =>
    simp only [Sys.act] at ha
    split at ha
    · obtain ⟨s₁, hq, rfl⟩ := Option.map_eq_some_iff.mp ha
      have hi := arpget_intact h w bp dest ifc hg
      rw [← qlock_arp hq] at hi
      split <;> rename_i hres <;> rw [hres] at hi <;> exact hi
    · cases ha
  | arprelease =>
    simp only [Sys.act] at ha
    split at ha
    · cases ha
      exact h
    · cases ha
  | arpresolve type mac =>
    simp only [Sys.act] at ha
    split at ha
    · cases ha
      exact arpresolve_intact h w _ type mac
    · cases ha
  | arpenter dest route mac n refresh =>
    simp only [Sys.act] at ha
    split at ha
    · obtain ⟨s₁, hq, rfl⟩ := Option.map_eq_some_iff.mp ha
      have hi := arpenter_intact h w dest route mac n refresh hg
      rw [← qlock_arp hq] at hi
      split <;> exact hi
    · cases ha
  | flush =>
    simp only [Sys.act] at ha
    split at ha
    · obtain ⟨s₁, hq, rfl⟩ := Option.map_eq_some_iff.mp ha
      exact flush_intact _
    · cases ha
  | del ip =>
    simp only [Sys.act] at ha
    split at ha
    · obtain ⟨s₁, hq, rfl⟩ := Option.map_eq_some_iff.mp ha
      have hi := del_intact h ip
      rw [← qlock_arp hq] at hi
      exact hi
    · cases ha
  | go err =>
    simp only [Sys.act] at ha
    split at ha
    · cases ha
      exact h
    · cases ha
      exact h
    · split at ha <;> cases ha <;> exact h
    · cases ha

omit [DecidableEq P] in
theorem Intact.rxmit (h : Intact s.arp) {w : World I M} {err : Bool} (hg : Good s (.rxmit w err))
    (ha : s.rxact w err = some s') : Intact s'.arp := by
  -- the drops do not matter
  have hdrops : ∀ {t : Arp I M B}, Intact t → Intact t.takedrops.1 := by
    rintro t ⟨H, R, ht⟩
    exact ⟨H, R, ht.aside ⟨⟨rfl, rfl, rfl, rfl⟩, fun _ => rfl, fun _ => rfl⟩⟩
  unfold Sys.rxact at ha
  split at ha
  · obtain ⟨s₁, hq, rfl⟩ := Option.map_eq_some_iff.mp ha
    have hi := rxmitfirst_intact h w
    rw [← qlock_arp hq] at hi
    have harp : ((s₁.arp.rxmitfirst w).2.2.foldl Sys.rlock (s₁.setarp (s₁.arp.rxmitfirst w).1)).arp =
        (s₁.arp.rxmitfirst w).1 := rlock_arp
    simp only
    split
    · have hd := hdrops hi
      rw [← harp] at hd
      exact hd
    · rw [← harp] at hi
      exact hi
    · rw [← harp] at hi
      exact hi
  · rename_i a ifc hrx
    split at ha
    · cases ha
      exact h
    · rename_i herr
      obtain ⟨s₁, hq, rfl⟩ := Option.map_eq_some_iff.mp ha
      have hi := rxmitagain_intact h w (hg (Bool.not_eq_true _ ▸ herr) a ifc hrx)
      have harp : s₁.arp = s.arp := (qlock_arp hq).trans rfl
      rw [← harp] at hi
      exact hdrops hi
  · cases ha
    exact h
  · cases ha
    exact h
  · cases ha
    exact h
  · cases ha
  · cases ha

omit [DecidableEq M] [DecidableEq B] [DecidableEq I] in
theorem Intact.zero (h : t.Zero) : Intact t := by
  obtain ⟨-, -, -, hhash, hrxmt, -⟩ := h
  refine ⟨fun _ => [], [], ⟨⟨⟨fun k => hhash k, fun _ => List.nodup_nil, fun ha => ?_⟩,
    ⟨fun _ => hrxmt, fun _ => List.nodup_nil, fun ha => ?_⟩, fun _ _ ha => ?_, fun _ ha => ?_⟩,
    fun _ _ ha => ?_, fun a => ?_⟩⟩
  · cases ha
  · cases ha
  · cases ha
  · cases ha
  · cases ha
  · constructor
    · intro ha
      cases ha
    · rintro ⟨⟨_, ha⟩, -⟩
      cases ha

theorem intact_inductive :
    ((resolution P I M B).restrict Good).Inductive fun s => Intact s.arp where
  init s h := .zero h.1
  step s e s' h hs := by
    obtain ⟨hs, hg⟩ := hs
    cases e with
    | call p w act => exact h.call hg hs.1
    | rxmit w err => exact h.rxmit hg hs

theorem arp_consistent (h : ((resolution P I M B).restrict Good).Reach s) : Consistent s.arp :=
  (intact_inductive.reach h).consistent

/-! ## One process and one interface -/

private def empty : Sys Unit Unit Unit Unit where
  arp :=
    { cache := fun _ => ⟨IPnoaddr, [], none, [], 0, 0, .UNUSED, 0, 0, none, 0⟩
      link := fun _ => none
      nextrxt := fun _ => none
      hash := fun _ => none
      rxmt := none
      dropf := []
      dropl := none }
  lock := 0
  readers _ := 0
  pc _ := .idle
  rx := .idle
  given _ := 0
  sent _ := 0
  freed _ := 0

theorem empty_init : (resolution Unit Unit Unit Unit).init empty :=
  ⟨⟨fun _ => ⟨rfl, rfl, rfl, rfl, rfl, rfl⟩, fun _ => rfl, fun _ => rfl, fun _ => rfl, rfl, rfl, rfl⟩,
    rfl, fun _ => rfl, fun _ => rfl, rfl, fun _ => rfl, fun _ => rfl, fun _ => rfl⟩

private def router : IPaddr := #v[0x20, 1, 0xd, 0xb8, 0, 0, 0, 0, 0, 0, 0, 0, 0, 0, 0, 1]

private def clock (now : UInt32) : World Unit Unit where
  now := now
  medium _ := some ()
  ifcid _ := 0
  canrlock _ := true
  maclen _ := 6

/-- A packet for the router comes while its address is not known. -/
private def asked : Event Unit Unit Unit Unit := .call () (clock 0) (.arpget (some ()) (.V6 router) ())

/-- Steps that need no packet. -/
private def plainly (s : Sys Unit Unit Unit Unit) (e : Event Unit Unit Unit Unit) :
    Option (Sys Unit Unit Unit Unit) :=
  match e with
  | .call _ _ (.arpget (some _) _ _) => none
  | .call p w act => s.act w p act
  | .rxmit w err => s.rxact w err

theorem plainly_step (s : Sys Unit Unit Unit Unit) (e : Event Unit Unit Unit Unit)
    (s' : Sys Unit Unit Unit Unit) (h : plainly s e = some s') :
    (resolution Unit Unit Unit Unit).step s e s' := by
  unfold plainly at h
  split at h
  · cases h
  · rename_i p w act hno
    refine ⟨h, fun bp dest ifc hact => ?_⟩
    subst hact
    exact absurd rfl (hno bp dest ifc)
  · exact h

theorem asked_step {s : Sys Unit Unit Unit Unit}
    (h : empty.act (clock 0) () (.arpget (some ()) (.V6 router) ()) = some s) :
    (resolution Unit Unit Unit Unit).step empty asked s := by
  refine ⟨h, fun _ _ _ _ => ⟨fun _ hb => ?_, fun hb => ?_, fun _ hb => ?_, fun hb => ?_⟩⟩
  · cases hb
  · cases hb
  · cases hb
  · cases hb

set_option maxRecDepth 20000 in
theorem arp_consistent_asked : ∃ s : Sys Unit Unit Unit Unit,
    ((resolution Unit Unit Unit Unit).restrict Good).Reach s ∧ s.arp.rxmt = some 0 ∧
      Consistent s.arp := by
  obtain ⟨s, hs⟩ : ∃ s, empty.act (clock 0) () (.arpget (some ()) (.V6 router) ()) = some s :=
    ⟨_, rfl⟩
  have hgood : Good empty asked := by
    refine fun _ => ⟨fun hrx => ?_, fun _ hv4 => ?_⟩
    · cases hrx
    · cases hv4
  have hreach : ((resolution Unit Unit Unit Unit).restrict Good).Reach s :=
    ⟨[] ++ [asked], .step (.init empty_init) ⟨asked_step hs, hgood⟩⟩
  refine ⟨s, hreach, ?_, arp_consistent hreach⟩
  cases hs
  rfl

/-- The router answers while its solicitation is sent: it is put back on the list after that. -/
private def answered : List (Event Unit Unit Unit Unit) :=
  [.call () (clock 0) .arprelease, .rxmit (clock 1000) false,
    .call () (clock 1000) (.arpenter (.V6 router) (some ()) [1, 2, 3, 4, 5, 6] 6 true),
    .rxmit (clock 1000) false]

set_option maxRecDepth 20000 in
theorem arp_stray : ∃ s : Sys Unit Unit Unit Unit, (resolution Unit Unit Unit Unit).Reach s ∧
    s.arp.rxmt = some 0 ∧ (s.arp.cache 0).state = .AOK ∧ ¬ Consistent s.arp := by
  obtain ⟨s, s', hs, hs'⟩ : ∃ s s',
      empty.act (clock 0) () (.arpget (some ()) (.V6 router) ()) = some s ∧
        answered.foldlM plainly s = some s' := ⟨_, _, rfl, rfl⟩
  have hreach : (resolution Unit Unit Unit Unit).Reach s :=
    ⟨[] ++ [asked], .step (.init empty_init) (asked_step hs)⟩
  replace hreach := hreach.exec plainly_step hs'
  cases hs
  cases hs'
  refine ⟨_, hreach, rfl, rfl, fun h => ?_⟩
  have hw := (h.waits 0).mp (.here 0)
  cases hw.2.1

end NixMark.Ares
