import NixMark.Nif.Modes

/-!
# The multicast addresses of an interface

* `holders`: how many files hold an address; `Multi`: bit maps and counts are in step with that.
* `Multi.add`, `Multi.remove`: `netmulti`; `Multi.lastclose`.
-/

namespace NixMark.Nif

open Lib
open Function (update update_apply update_eq_self update_of_ne update_self)

variable {U A : Type} {nif nif' : Netif U A} {held held' : Nat → A → Bool} {id : Nat}
  {f f' : Netfile U} {addr : A}

/-- How many files hold the address. -/
def holders (nfile : Nat) (held : Nat → A → Bool) (addr : A) : Nat :=
  (List.range nfile).countP fun i => held i addr

structure Multi (nif : Netif U A) (held : Nat → A → Bool) : Prop where
  low : ∀ i f, nif.f i = some f → i < nif.nfile
  bits : ∀ i f k, nif.f i = some f → f.maddr k = (nif.maddr[k]?).any fun ap => held i ap.addr
  nmaddr : ∀ i f, nif.f i = some f → f.nmaddr = (List.range NBITS).countP f.maddr
  known : ∀ i a, held i a = true → (∃ f, nif.f i = some f) ∧ ∃ ap ∈ nif.maddr, ap.addr = a
  nodup : (nif.maddr.map Netaddr.addr).Nodup
  short : nif.maddr.length ≤ NBITS
  capable : nif.multicast = false → nif.maddr = []
  refs : ∀ ap ∈ nif.maddr, ap.ref = holders nif.nfile held ap.addr
  told : ∀ a, nif.receives a = true ↔ 0 < holders nif.nfile held a

/-- Nothing of this changes. -/
theorem Multi.congr (h : Multi nif held) (hn : nif'.nfile = nif.nfile) (hm : nif'.maddr = nif.maddr)
    (hr : nif'.receives = nif.receives) (hc : nif'.multicast = nif.multicast)
    (hlow : ∀ i f, nif'.f i = some f → i < nif.nfile)
    (hf : ∀ i f', nif'.f i = some f' → ∀ f, f = (nif.f i).getD .zero →
      f'.maddr = f.maddr ∧ f'.nmaddr = f.nmaddr)
    (hkeep : ∀ i f, nif.f i = some f → ∃ f', nif'.f i = some f') : Multi nif' held := by
  have hbits : ∀ i f' k, nif'.f i = some f' →
      f'.maddr k = (nif.maddr[k]?).any fun ap => held i ap.addr := by
    intro i f' k hf'
    rw [(hf i f' hf' _ rfl).1]
    cases hfi : nif.f i with
    | some f => exact h.bits i f k hfi
    | none =>
      have hno : ∀ a, held i a = false := by
        intro a
        by_contra hh
        obtain ⟨⟨f, hf⟩, -⟩ := h.known i a (Bool.not_eq_false _ ▸ hh)
        rw [hfi] at hf
        cases hf
      simp only [hno]
      cases nif.maddr[k]? <;> rfl
  refine ⟨fun i f hi => hn ▸ hlow i f hi, fun i f' k hf' => ?_, fun i f' hf' => ?_,
    fun i a ha => ?_, ?_, ?_, ?_, ?_, ?_⟩
  · rw [hm]
    exact hbits i f' k hf'
  · obtain ⟨hmaddr, hnm⟩ := hf i f' hf' _ rfl
    rw [hnm, hmaddr]
    cases hfi : nif.f i with
    | some f => exact h.nmaddr i f hfi
    | none => exact (congrArg Nat.cast (List.countP_eq_zero.mpr fun _ _ => Bool.false_ne_true)).symm
  · obtain ⟨⟨f, hf⟩, ha⟩ := h.known i a ha
    rw [hm]
    exact ⟨hkeep i f hf, ha⟩
  · rw [hm]
    exact h.nodup
  · rw [hm]
    exact h.short
  · rw [hc, hm]
    exact h.capable
  · rw [hm, hn]
    exact h.refs
  · rw [hr, hn]
    exact h.told

variable [DecidableEq A]

/-- The conversation holds the address, or not. -/
def hold (held : Nat → A → Bool) (id : Nat) (addr : A) (on : Bool) : Nat → A → Bool :=
  Function.update held id (Function.update (held id) addr on)

variable {on : Bool}

theorem hold_self : hold held id addr on id addr = on := by
  unfold hold
  rw [update_self, update_self]

variable {a : A}

theorem hold_ne (ha : a ≠ addr) (i : Nat) : hold held id addr on i a = held i a := by
  unfold hold
  rw [update_apply]
  split
  · rename_i hi
    rw [hi, update_of_ne ha]
  · rfl

theorem hold_other {i : Nat} (hi : i ≠ id) : hold held id addr on i = held i :=
  update_of_ne hi _ _

theorem holders_hold (held : Nat → A → Bool) (addr : A) {n : Nat} (hid : id < n) (on : Bool) :
    holders n (hold held id addr on) addr + (held id addr).toNat = holders n held addr + on.toNat := by
  have hoff := countP_of_off List.nodup_range (List.mem_range.mpr hid) (p := fun i => held i addr)
    (q := fun i => hold held id addr on i addr) fun j hj => by rw [hold_other hj]
  rw [hold_self] at hoff
  exact hoff

theorem holders_other {n : Nat} (ha : a ≠ addr) :
    holders n (hold held id addr on) a = holders n held a := by
  unfold holders
  exact List.countP_congr fun i _ => by rw [hold_ne ha]

omit [DecidableEq A] in
theorem any_addr (held : A → Bool) (o : Option (Netaddr A)) :
    (o.any fun ap => held ap.addr) = (o.map Netaddr.addr).any held := by
  cases o <;> rfl

variable {k : Nat}

/-- The bit of an address and its holder change together. -/
theorem Multi.bit (h : Multi nif held) (hf : nif.f id = some f) (hk : k < NBITS)
    (hn : nif'.nfile = nif.nfile) (hc : nif'.multicast = nif.multicast)
    (hcap : nif.multicast = true) (hf' : nif'.f = update nif.f id (some f'))
    (hmaddr : f'.maddr = update f.maddr k on)
    (hnm : f'.nmaddr + (f.maddr k).toNat = f.nmaddr + on.toNat)
    (haddr : ∀ j, (nif'.maddr[j]?).map Netaddr.addr =
      if j = k then some addr else (nif.maddr[j]?).map Netaddr.addr)
    (hother : ∀ j ≠ k, (nif.maddr[j]?).map Netaddr.addr ≠ some addr)
    (hat : (nif.maddr[k]?).map Netaddr.addr = some addr ∨
      nif.maddr[k]? = none ∧ ∀ i, held i addr = false)
    (hnodup : (nif'.maddr.map Netaddr.addr).Nodup) (hshort : nif'.maddr.length ≤ NBITS)
    (hold' : ∀ ap ∈ nif'.maddr, ap.addr ≠ addr → ap ∈ nif.maddr)
    (hnew : ∀ ap ∈ nif'.maddr, ap.addr = addr →
      ap.ref = holders nif.nfile (hold held id addr on) addr)
    (hrec : ∀ a ≠ addr, nif'.receives a = nif.receives a)
    (hself : nif'.receives addr = true ↔ 0 < holders nif.nfile (hold held id addr on) addr) :
    Multi nif' (hold held id addr on) := by
  have hfile : ∀ i g, nif'.f i = some g → (i = id ∧ g = f') ∨ (i ≠ id ∧ nif.f i = some g) := by
    intro i g hg
    rw [hf', update_apply] at hg
    split at hg
    · rename_i hi
      exact .inl ⟨hi, (Option.some.inj hg).symm⟩
    · rename_i hi
      exact .inr ⟨hi, hg⟩
  refine ⟨fun i g hg => ?_, fun i g j hg => ?_, fun i g hg => ?_, fun i a ha => ?_, hnodup, hshort,
    ?_, fun ap hap => ?_, fun a => ?_⟩
  · rw [hn]
    rcases hfile i g hg with ⟨rfl, -⟩ | ⟨-, hg⟩
    · exact h.low i f hf
    · exact h.low i g hg
  · rw [any_addr, haddr j]
    rcases hfile i g hg with ⟨rfl, rfl⟩ | ⟨hi, hg⟩
    · rw [hmaddr, update_apply]
      split
      · rw [Option.any_some, hold_self]
      · rename_i hj
        rw [h.bits i f j hf, any_addr]
        cases ho : (nif.maddr[j]?).map Netaddr.addr with
        | none => rfl
        | some a =>
          have ha : a ≠ addr := fun he => hother j hj (he ▸ ho)
          rw [Option.any_some, Option.any_some, hold_ne ha]
    · rw [h.bits i g j hg, any_addr, hold_other hi]
      split
      · rename_i hj
        rw [hj, Option.any_some]
        rcases hat with hat | ⟨hat, hno⟩
        · rw [hat, Option.any_some]
        · rw [hat, hno]
          rfl
      · rfl
  · rcases hfile i g hg with ⟨rfl, rfl⟩ | ⟨-, hg⟩
    · have hoff := countP_of_off List.nodup_range (List.mem_range.mpr hk) (p := f.maddr)
        (q := g.maddr) fun j hj => by rw [hmaddr, update_of_ne hj]
      rw [hmaddr, update_self] at hoff
      have h0 := h.nmaddr i f hf
      rw [hmaddr]
      omega
    · exact h.nmaddr i g hg
  · have hcases : a = addr ∨ held i a = true := by
      by_cases haa : a = addr
      · exact .inl haa
      · rw [hold_ne haa] at ha
        exact .inr ha
    have hin : ∃ ap ∈ nif'.maddr, ap.addr = addr := by
      have hk' := haddr k
      rw [if_pos rfl] at hk'
      obtain ⟨ap, hap, he⟩ := Option.map_eq_some_iff.mp hk'
      exact ⟨ap, List.mem_of_getElem? hap, he⟩
    refine ⟨?_, ?_⟩
    · by_cases hi : i = id
      · exact ⟨f', by rw [hf', hi, update_self]⟩
      · rw [hold_other hi] at ha
        rw [hf', update_of_ne hi]
        exact (h.known i a ha).1
    · rcases hcases with rfl | ha
      · exact hin
      · obtain ⟨-, ap, hap, he⟩ := h.known i a ha
        obtain ⟨j, hj⟩ := List.getElem?_of_mem hap
        have hj' := haddr j
        rw [hj, Option.map_some, he] at hj'
        split at hj'
        · rename_i hjk
          rcases hat with hat | ⟨hat, -⟩
          · rw [← hjk, hj, Option.map_some, he] at hat
            obtain ⟨ap', hap', he'⟩ := hin
            exact ⟨ap', hap', he'.trans (Option.some.inj hat).symm⟩
          · rw [← hjk, hj] at hat
            cases hat
        · obtain ⟨ap', hap', he'⟩ := Option.map_eq_some_iff.mp hj'
          exact ⟨ap', List.mem_of_getElem? hap', he'⟩
  · rw [hc]
    intro hno
    rw [hcap] at hno
    cases hno
  · rw [hn]
    by_cases haa : ap.addr = addr
    · rw [haa]
      exact hnew ap hap haa
    · rw [holders_other haa]
      exact h.refs ap (hold' ap hap haa)
  · rw [hn]
    by_cases haa : a = addr
    · rw [haa]
      exact hself
    · rw [hrec a haa, holders_other haa]
      exact h.told a

/-! ## `netmulti` -/

theorem index_none (h : nif.maddr[nif.index addr]? = none) :
    nif.index addr = nif.maddr.length ∧ ∀ ap ∈ nif.maddr, ap.addr ≠ addr := by
  unfold Netif.index at *
  have hle := List.getElem?_eq_none_iff.mp h
  have hlen := List.findIdx_eq_length.mp (Nat.le_antisymm List.findIdx_le_length hle)
  refine ⟨Nat.le_antisymm List.findIdx_le_length hle, fun ap hap he => ?_⟩
  have hno := hlen ap hap
  rw [he, beq_self_eq_true] at hno
  cases hno

theorem index_some {ap : Netaddr A} (h : nif.maddr[nif.index addr]? = some ap) : ap.addr = addr := by
  unfold Netif.index at h
  obtain ⟨hlt, hget⟩ := List.getElem?_eq_some_iff.mp h
  have hp := List.findIdx_getElem (p := fun ap : Netaddr A => ap.addr == addr) (w := hlt)
  rw [hget] at hp
  exact eq_of_beq hp

section
omit [DecidableEq A]

/-- At another place is another address. -/
theorem Multi.apart (h : Multi nif held) {j : Nat}
    (hk : (nif.maddr[k]?).map Netaddr.addr = some addr) (hj : j ≠ k) :
    (nif.maddr[j]?).map Netaddr.addr ≠ some addr := by
  intro he
  rw [← List.getElem?_map] at hk he
  obtain ⟨hlt, hget⟩ := List.getElem?_eq_some_iff.mp hk
  obtain ⟨hlt', hget'⟩ := List.getElem?_eq_some_iff.mp he
  exact hj ((List.Nodup.getElem_inj_iff h.nodup).mp (hget'.trans hget.symm))

theorem setbit_f (hk : k < NBITS) (hf : nif.f id = some f) (hno : f.maddr k = false) :
    ∃ n : Netif U A, nif.setbit id k = n ∧ n.nfile = nif.nfile ∧ n.multicast = nif.multicast ∧
      n.maddr = nif.maddr ∧ n.receives = nif.receives ∧
      n.f = update nif.f id (some { f with
        nmaddr := f.nmaddr + 1
        maddr := update f.maddr k true }) := by
  refine ⟨_, rfl, ?_⟩
  unfold Netif.setbit
  rw [if_pos hk]
  refine ⟨rfl, rfl, rfl, rfl, ?_⟩
  rw [mod_f hf, hno]
  rfl

theorem clearbit_f (hk : k < NBITS) (hf : nif.f id = some f) (hyes : f.maddr k = true) :
    ∃ n : Netif U A, nif.clearbit id k = n ∧ n.nfile = nif.nfile ∧ n.multicast = nif.multicast ∧
      n.maddr = nif.maddr ∧ n.receives = nif.receives ∧
      n.f = update nif.f id (some { f with
        nmaddr := f.nmaddr - 1
        maddr := update f.maddr k false }) := by
  refine ⟨_, rfl, ?_⟩
  unfold Netif.clearbit
  rw [if_pos hk]
  refine ⟨rfl, rfl, rfl, rfl, ?_⟩
  rw [mod_f hf, hyes]
  rfl

/-- A count of the list changes. -/
theorem set_addr {l : List (Netaddr A)} {ap : Netaddr A} (hm : l[k]? = some ap) (r : Int) (j : Nat) :
    ((l.set k { ap with ref := r })[j]?).map Netaddr.addr = (l[j]?).map Netaddr.addr := by
  rw [List.getElem?_set]
  split
  · rename_i hj
    subst hj
    obtain ⟨hlt, -⟩ := List.getElem?_eq_some_iff.mp hm
    rw [if_pos hlt, hm]
    rfl
  · rfl

theorem mem_set {l : List (Netaddr A)} {x y : Netaddr A} (h : y ∈ l.set k x) :
    y = x ∨ ∃ j ≠ k, l[j]? = some y := by
  obtain ⟨j, hj⟩ := List.getElem?_of_mem h
  rw [List.getElem?_set] at hj
  split at hj
  · split at hj
    · exact .inl (Option.some.inj hj).symm
    · cases hj
  · rename_i hjk
    exact .inr ⟨j, Ne.symm hjk, hj⟩

end

/-- What `netmulti` makes of the list, before the bit is set. -/
theorem netmulti_add (h : Multi nif held) (id : Nat) (addr : A) (hcap : nif.multicast = true) :
    ∃ n : Netif U A, (nif.netmulti id addr true).1 = n.setbit id (nif.index addr) ∧
      n.nfile = nif.nfile ∧ n.multicast = nif.multicast ∧ n.f = nif.f ∧
      n.receives = update nif.receives addr true ∧
      ((nif.maddr[nif.index addr]? = none ∧ n.maddr = nif.maddr ++ [⟨addr, 1⟩]) ∨
        ∃ ap, nif.maddr[nif.index addr]? = some ap ∧
          n.maddr = nif.maddr.set (nif.index addr) { ap with ref := ap.ref + 1 }) := by
  unfold Netif.netmulti
  rw [if_neg (by rw [hcap]; exact Bool.noConfusion)]
  cases hm : nif.maddr[nif.index addr]? with
  | none =>
    simp only [hm]
    exact ⟨_, rfl, rfl, rfl, rfl, rfl, .inl ⟨trivial, rfl⟩⟩
  | some ap =>
    simp only [hm]
    refine ⟨_, rfl, ?_, ?_, ?_, ?_, .inr ⟨ap, rfl, ?_⟩⟩
    · split <;> rfl
    · split <;> rfl
    · split <;> rfl
    · split
      · rfl
      · rename_i hr
        -- someone holds it already
        have hap := List.mem_of_getElem? hm
        have href := h.refs ap hap
        rw [index_some hm] at href
        have htold := (h.told addr).mpr (by omega)
        exact (Function.update_eq_self_iff.mpr htold.symm).symm
    · split <;> rfl

/-- A file adds an address that it does not hold. -/
theorem Multi.add (h : Multi nif held) (addr : A) (hf : nif.f id = some f) (hcap : nif.multicast = true)
    (hk : nif.index addr < NBITS) (hno : f.maddr (nif.index addr) = false) :
    Multi (nif.netmulti id addr true).1 (hold held id addr true) := by
  have hid := h.low id f hf
  obtain ⟨n, hn, hnfile, hmc, hnf, hrec, hlist⟩ := netmulti_add h id addr hcap
  have hf' : n.f id = some f := by rw [hnf, hf]
  obtain ⟨m, hm, hmn, hmm, hma, hmr, hmf⟩ := setbit_f hk hf' hno
  rw [hn, hm]
  have hself : ∀ {j : Nat}, held id addr = false → j = holders nif.nfile held addr →
      holders nif.nfile (hold held id addr true) addr = j + 1 := by
    intro j hheld hj
    have hh := holders_hold held addr hid true
    rw [hheld] at hh
    rw [hj]
    exact hh
  have hreceives : ∀ a ≠ addr, m.receives a = nif.receives a := fun a ha => by
    rw [hmr, hrec, update_of_ne ha]
  have htold : m.receives addr = true := by rw [hmr, hrec, update_self]
  rw [hnf] at hmf
  rcases hlist with ⟨hnone, hlist⟩ | ⟨ap, hsome, hlist⟩
  · obtain ⟨hlen, hfresh⟩ := index_none hnone
    have hheld : ∀ i, held i addr = false := by
      intro i
      by_contra hh
      obtain ⟨-, ap, hap, he⟩ := h.known i addr (Bool.not_eq_false _ ▸ hh)
      exact hfresh ap hap he
    have hone := hself (j := 0) (hheld id)
      (List.countP_eq_zero.mpr fun i _ => by rw [hheld]; exact Bool.false_ne_true).symm
    refine h.bit hf hk (hmn.trans hnfile) (hmm.trans hmc) hcap hmf rfl ?_ (fun j => ?_)
      (fun j hj he => ?_) (.inr ⟨hnone, hheld⟩) ?_ ?_ (fun ap hap hne => ?_) (fun ap hap he => ?_)
      hreceives ⟨fun _ => ?_, fun _ => htold⟩
    · rw [hno]
      exact Int.add_zero _
    · rw [hma, hlist, hlen]
      split
      · rename_i hj
        rw [hj, List.getElem?_concat_length]
        rfl
      · rename_i hj
        by_cases hlt : j < nif.maddr.length
        · rw [List.getElem?_append_left hlt]
        · rw [List.getElem?_eq_none (by rw [List.length_append, List.length_singleton]; omega),
            List.getElem?_eq_none (by omega)]
    · obtain ⟨ap, hap, hea⟩ := Option.map_eq_some_iff.mp he
      exact hfresh ap (List.mem_of_getElem? hap) hea
    · rw [hma, hlist, List.map_append, List.map_singleton, List.nodup_append]
      refine ⟨h.nodup, List.nodup_singleton _, fun a ha b hb => ?_⟩
      obtain ⟨ap, hap, rfl⟩ := List.mem_map.mp ha
      rw [List.mem_singleton.mp hb]
      exact hfresh ap hap
    · rw [hma, hlist, List.length_append, List.length_singleton]
      omega
    · rw [hma, hlist] at hap
      rcases List.mem_append.mp hap with hap | hap
      · exact hap
      · rw [List.mem_singleton.mp hap] at hne
        exact absurd rfl hne
    · rw [hma, hlist] at hap
      rw [hone]
      rcases List.mem_append.mp hap with hap | hap
      · exact absurd he (hfresh ap hap)
      · rw [List.mem_singleton.mp hap]
        rfl
    · rw [hone]
      exact Nat.one_pos
  · have haddr := index_some hsome
    have hmem := List.mem_of_getElem? hsome
    have hheld : held id addr = false := by
      have hb := h.bits id f (nif.index addr) hf
      rw [hno, hsome, Option.any_some, haddr] at hb
      exact hb.symm
    have hmore := hself hheld rfl
    have hmap : (nif.maddr[nif.index addr]?).map Netaddr.addr = some addr := by
      rw [hsome, Option.map_some, haddr]
    have haddrs : m.maddr.map Netaddr.addr = nif.maddr.map Netaddr.addr := by
      refine List.ext_getElem? fun j => ?_
      rw [List.getElem?_map, List.getElem?_map, hma, hlist]
      exact set_addr hsome _ j
    refine h.bit hf hk (hmn.trans hnfile) (hmm.trans hmc) hcap hmf rfl ?_ (fun j => ?_)
      (fun j hj => h.apart hmap hj) (.inl hmap) ?_ ?_ (fun ap' hap hne => ?_) (fun ap' hap he => ?_)
      hreceives ⟨fun _ => ?_, fun _ => htold⟩
    · rw [hno]
      exact Int.add_zero _
    · rw [hma, hlist, set_addr hsome]
      split
      · rename_i hj
        rw [hj, hmap]
      · rfl
    · rw [haddrs]
      exact h.nodup
    · rw [hma, hlist, List.length_set]
      exact h.short
    · rw [hma, hlist] at hap
      rcases mem_set hap with rfl | ⟨j, -, hj⟩
      · exact absurd haddr hne
      · exact List.mem_of_getElem? hj
    · rw [hma, hlist] at hap
      rw [hmore]
      rcases mem_set hap with rfl | ⟨j, hj, hget⟩
      · have href := h.refs ap hmem
        rw [haddr] at href
        exact congrArg (· + 1) href
      · exact absurd (by rw [hget, Option.map_some, he]) (h.apart hmap hj)
    · rw [hmore]
      exact Nat.succ_pos _

theorem hold_same (h : held id addr = on) : hold held id addr on = held := by
  unfold hold
  rw [← h, update_eq_self, update_eq_self]

/-- A file removes an address that it holds, or that nobody holds. -/
theorem Multi.remove (h : Multi nif held) (addr : A) (hf : nif.f id = some f) (hcap : nif.multicast = true)
    (hgood : ∀ ap, nif.maddr[nif.index addr]? = some ap → ap.ref ≠ 0 →
      f.maddr (nif.index addr) = true) :
    Multi (nif.netmulti id addr false).1 (hold held id addr false) := by
  have hid := h.low id f hf
  have hholders := holders_hold held addr hid false
  unfold Netif.netmulti
  rw [if_neg (by rw [hcap]; exact Bool.noConfusion)]
  cases hm : nif.maddr[nif.index addr]? with
  | none =>
    obtain ⟨-, hfresh⟩ := index_none hm
    have hno : held id addr = false := by
      by_contra hh
      obtain ⟨-, ap, hap, he⟩ := h.known id addr (Bool.not_eq_false _ ▸ hh)
      exact hfresh ap hap he
    simp only [hm]
    rw [hold_same hno]
    exact h
  | some ap =>
    have haddr := index_some hm
    have hmem := List.mem_of_getElem? hm
    have href := h.refs ap hmem
    rw [haddr] at href
    simp only [hm]
    by_cases hz : ap.ref = 0
    · have hno : held id addr = false := by
        have hzero : holders nif.nfile held addr = 0 := by omega
        have hnot := List.countP_eq_zero.mp hzero id (List.mem_range.mpr hid)
        exact Bool.not_eq_true _ ▸ hnot
      rw [if_pos hz, hold_same hno]
      exact h
    · rw [if_neg hz]
      have hyes := hgood ap hm hz
      have hmap : (nif.maddr[nif.index addr]?).map Netaddr.addr = some addr := by
        rw [hm, Option.map_some, haddr]
      have hheld : held id addr = true := by
        have hb := h.bits id f (nif.index addr) hf
        rw [hyes, hm, Option.any_some, haddr] at hb
        exact hb.symm
      have hk : nif.index addr < NBITS := by
        have hlt := (List.getElem?_eq_some_iff.mp hm).1
        have hs := h.short
        omega
      rw [hheld] at hholders
      have hless : ap.ref - 1 = holders nif.nfile (hold held id addr false) addr := by
        change _ + 1 = _ + 0 at hholders
        omega
      -- the list, and what the device is told
      obtain ⟨n, hn, hnfile, hmc, hnf, hlist, hrec⟩ : ∃ n : Netif U A,
          n = (if ap.ref - 1 = 0 then
            { ({ nif with maddr := nif.maddr.set (nif.index addr) { ap with ref := ap.ref - 1 } } :
              Netif U A).tell addr false with nmaddr := nif.nmaddr - 1 }
          else { nif with maddr := nif.maddr.set (nif.index addr) { ap with ref := ap.ref - 1 } }) ∧
          n.nfile = nif.nfile ∧ n.multicast = nif.multicast ∧ n.f = nif.f ∧
          n.maddr = nif.maddr.set (nif.index addr) { ap with ref := ap.ref - 1 } ∧
          n.receives = update nif.receives addr (decide (ap.ref - 1 ≠ 0)) := by
        refine ⟨_, rfl, ?_, ?_, ?_, ?_, ?_⟩
        · split <;> rfl
        · split <;> rfl
        · split <;> rfl
        · split <;> rfl
        · split
          · rename_i hlast
            rw [decide_eq_false (not_not.mpr hlast)]
            rfl
          · rename_i hlast
            rw [decide_eq_true hlast]
            exact (Function.update_eq_self_iff.mpr ((h.told addr).mpr (by omega)).symm).symm
      rw [← hn]
      have hf' : n.f id = some f := by rw [hnf, hf]
      obtain ⟨m, hmeq, hmn, hmm, hma, hmr, hmf⟩ := clearbit_f hk hf' hyes
      rw [hmeq]
      rw [hnf] at hmf
      have haddrs : m.maddr.map Netaddr.addr = nif.maddr.map Netaddr.addr := by
        refine List.ext_getElem? fun j => ?_
        rw [List.getElem?_map, List.getElem?_map, hma, hlist]
        exact set_addr hm _ j
      refine h.bit hf hk (hmn.trans hnfile) (hmm.trans hmc) hcap hmf rfl ?_ (fun j => ?_)
        (fun j hj => h.apart hmap hj) (.inl hmap) ?_ ?_ (fun ap' hap hne => ?_)
        (fun ap' hap he => ?_) (fun a ha => ?_) ?_
      · rw [hyes]
        change f.nmaddr - 1 + 1 = f.nmaddr + 0
        omega
      · rw [hma, hlist, set_addr hm]
        split
        · rename_i hj
          rw [hj, hmap]
        · rfl
      · rw [haddrs]
        exact h.nodup
      · rw [hma, hlist, List.length_set]
        exact h.short
      · rw [hma, hlist] at hap
        rcases mem_set hap with rfl | ⟨j, -, hj⟩
        · exact absurd haddr hne
        · exact List.mem_of_getElem? hj
      · rw [hma, hlist] at hap
        rcases mem_set hap with rfl | ⟨j, hj, hget⟩
        · exact hless
        · exact absurd (by rw [hget, Option.map_some, he]) (h.apart hmap hj)
      · rw [hmr, hrec, update_of_ne ha]
      · rw [hmr, hrec, update_self, decide_eq_true_eq]
        omega

/-! ## The last close -/

omit [DecidableEq A] in
/-- A file changes otherwise. -/
theorem Multi.mod (h : Multi nif held) (hf : nif.f id = some f)
    (hf' : nif'.f = update nif.f id (some f')) (hm : f'.maddr = f.maddr)
    (hnm : f'.nmaddr = f.nmaddr) (hn : nif'.nfile = nif.nfile) (hl : nif'.maddr = nif.maddr)
    (hr : nif'.receives = nif.receives) (hc : nif'.multicast = nif.multicast) : Multi nif' held := by
  refine h.congr hn hl hr hc (fun i g hg => ?_) (fun i g hg f₀ hf₀ => ?_) fun i g hg => ?_
  · rw [hf', update_apply] at hg
    split at hg
    · rename_i hi
      exact hi ▸ h.low id f hf
    · exact h.low i g hg
  · rw [hf', update_apply] at hg
    split at hg
    · rename_i hi
      rw [hi, hf] at hf₀
      rw [hf₀, ← Option.some.inj hg]
      exact ⟨hm, hnm⟩
    · rw [hg] at hf₀
      rw [hf₀]
      exact ⟨rfl, rfl⟩
  · rw [hf', update_apply]
    split
    · exact ⟨_, rfl⟩
    · exact ⟨g, hg⟩

omit [DecidableEq A] in
/-- What a file holds is in its bit map. -/
theorem Multi.bit_of_held (h : Multi nif held) (hf : nif.f id = some f) (ha : held id a = true) :
    ∃ k < NBITS, ∃ ap, nif.maddr[k]? = some ap ∧ ap.addr = a ∧ f.maddr k = true := by
  obtain ⟨-, ap, hap, he⟩ := h.known id a ha
  obtain ⟨k, hk⟩ := List.getElem?_of_mem hap
  have hlt := (List.getElem?_eq_some_iff.mp hk).1
  refine ⟨k, Nat.lt_of_lt_of_le hlt h.short, ap, hk, he, ?_⟩
  rw [h.bits id f k hf, hk, Option.any_some, he]
  exact ha

/-- The loop goes on without effect. -/
theorem dropmulti_idle (l : List (Netaddr A)) (hf : nif.f id = some f) (h0 : f.maddr 0 = false) :
    nif.dropmulti id l = nif := by
  unfold Netif.dropmulti
  induction l with
  | nil => rfl
  | cons ap l ih =>
    rw [List.foldl_cons, hf, Option.any_some, h0, if_neg Bool.false_ne_true]
    exact ih

theorem Multi.closemulti (h : Multi nif held) (hf : nif.f id = some f) {f₀ : Netfile U}
    (h₀ : f₀.nmaddr = f.nmaddr) (hgood : ∀ k ≠ 0, f.maddr k = false) :
    Multi (nif.closemulti id f₀) (update held id fun _ => false) := by
  have hcount := h.nmaddr id f hf
  unfold Netif.closemulti
  rw [h₀]
  by_cases hz : f.nmaddr = 0
  · rw [if_neg (not_not.mpr hz)]
    have hnone : held id = fun _ => false := by
      funext a
      by_contra hh
      obtain ⟨k, hk, -, -, -, hbit⟩ := h.bit_of_held hf (Bool.not_eq_false _ ▸ hh)
      have hzero : (List.range NBITS).countP f.maddr = 0 := by omega
      exact List.countP_eq_zero.mp hzero k (List.mem_range.mpr hk) hbit
    rw [← hnone, update_eq_self]
    exact h
  · rw [if_pos hz]
    -- the only bit is that of the first address
    have h0 : f.maddr 0 = true := by
      by_contra hh
      refine hz ?_
      rw [hcount]
      refine congrArg Nat.cast (List.countP_eq_zero.mpr fun k _ hk => ?_)
      by_cases hk0 : k = 0
      · rw [hk0] at hk
        exact hh hk
      · rw [hgood k hk0] at hk
        cases hk
    have hfirst := h.bits id f 0 hf
    rw [h0] at hfirst
    cases hl : nif.maddr with
    | nil =>
      rw [hl] at hfirst
      cases hfirst
    | cons ap l =>
      have hcap : nif.multicast = true := by
        by_contra hh
        have hnil := h.capable (Bool.not_eq_true _ ▸ hh)
        rw [hl] at hnil
        cases hnil
      have hindex : nif.index ap.addr = 0 := by
        unfold Netif.index
        rw [hl, List.findIdx_cons, beq_self_eq_true]
        rfl
      have hrem := h.remove ap.addr hf hcap fun _ _ _ => by
        rw [hindex]
        exact h0
      have hheld : hold held id ap.addr false = update held id fun _ => false := by
        unfold hold
        congr 1
        funext a
        rw [update_apply]
        split
        · rfl
        · rename_i ha
          by_contra hh
          obtain ⟨k, -, ap', hk, he, hbit⟩ := h.bit_of_held hf (Bool.not_eq_false _ ▸ hh)
          have hk0 : k = 0 := by
            by_contra hk0
            rw [hgood k hk0] at hbit
            cases hbit
          rw [hk0, hl] at hk
          cases hk
          exact ha he.symm
      rw [hheld] at hrem
      have hstep : nif.dropmulti id (ap :: l) = (nif.netmulti id ap.addr false).1.dropmulti id l := by
        unfold Netif.dropmulti
        rw [List.foldl_cons, hf, Option.any_some, h0, if_pos rfl]
      rw [hstep]
      have hap : Apart nif (nif.netmulti id ap.addr false).1 := .netmulti
      generalize (nif.netmulti id ap.addr false).1 = n at *
      obtain ⟨f', hf', -⟩ : ∃ f', n.f id = some f' ∧ f'.core = f.core := by
        have hfi := hap.f id
        rw [hf] at hfi
        exact Option.map_eq_some_iff.mp hfi
      have hnobit : ∀ k, f'.maddr k = false := by
        intro k
        rw [hrem.bits id f' k hf', update_self]
        cases n.maddr[k]? <;> rfl
      have hnocount : f'.nmaddr = 0 := by
        rw [hrem.nmaddr id f' hf']
        refine congrArg Nat.cast (List.countP_eq_zero.mpr fun k _ hk => ?_)
        rw [hnobit k] at hk
        cases hk
      rw [dropmulti_idle l hf' (hnobit 0)]
      exact hrem.mod hf' (mod_f hf') rfl hnocount.symm rfl rfl rfl rfl

omit [DecidableEq A] in
/-- The modes of the file are undone. -/
theorem Multi.closemodes (h : Multi nif held) (hf : nif.f id = some f) : ∃ f',
    ((nif.closeprom id f).closescan id f).f id = some f' ∧ f'.maddr = f.maddr ∧
      f'.nmaddr = f.nmaddr ∧ Multi ((nif.closeprom id f).closescan id f) held := by
  have hprom : ∃ f', (nif.closeprom id f).f id = some f' ∧ f'.maddr = f.maddr ∧
      f'.nmaddr = f.nmaddr ∧ Multi (nif.closeprom id f) held := by
    unfold Netif.closeprom
    split
    · refine ⟨{ f with prom := 0 }, ?_, rfl, rfl, h.mod hf (mod_f hf) rfl rfl rfl rfl rfl rfl⟩
      exact (congrFun (mod_f hf) id).trans (update_self ..)
    · exact ⟨f, hf, rfl, rfl, h⟩
  obtain ⟨f₁, hf₁, hm₁, hn₁, h₁⟩ := hprom
  unfold Netif.closescan
  split
  · refine ⟨{ f₁ with prom := 0, scan := 0 }, ?_, hm₁, hn₁,
      h₁.mod hf₁ (mod_f hf₁) rfl rfl rfl rfl rfl rfl⟩
    exact (congrFun (mod_f hf₁) id).trans (update_self ..)
  · exact ⟨f₁, hf₁, hm₁, hn₁, h₁⟩

theorem Multi.lastclose (h : Multi nif held) (hf : nif.f id = some f)
    (hgood : ∀ k ≠ 0, f.maddr k = false) :
    Multi (nif.lastclose id f) (update held id fun _ => false) := by
  obtain ⟨f₂, hf₂, hm₂, hn₂, h₂⟩ := h.closemodes hf
  have h₃ := h₂.closemulti hf₂ hn₂.symm (hm₂ ▸ hgood)
  have hap : Apart _ (((nif.closeprom id f).closescan id f).closemulti id f) := .closemulti
  unfold Netif.lastclose
  generalize ((nif.closeprom id f).closescan id f).closemulti id f = n at *
  obtain ⟨f₃, hf₃, -⟩ : ∃ f₃, n.f id = some f₃ ∧ f₃.core = f₂.core := by
    have hfi := hap.f id
    rw [hf₂] at hfi
    exact Option.map_eq_some_iff.mp hfi
  unfold Netif.closetype
  split
  · exact h₃.mod hf₃ (mod_f (show ({ n with all := n.all - 1 } : Netif U A).f id = some _ from hf₃)) rfl rfl rfl rfl rfl rfl
  · exact h₃.mod hf₃ (mod_f hf₃) rfl rfl rfl rfl rfl rfl

theorem Multi.close (h : Multi nif held) (hf : nif.f id = some f)
    (hgood : f.inuse = 1 → ∀ k ≠ 0, f.maddr k = false) :
    Multi (nif.netifclose id) (if f.inuse = 1 then update held id fun _ => false else held) := by
  have hset : Multi (nif.setfile id { f with inuse := f.inuse - 1 }) held :=
    h.mod hf rfl rfl rfl rfl rfl rfl rfl
  unfold Netif.netifclose
  rw [hf]
  dsimp only
  by_cases hlast : f.inuse = 1
  · have hself : (nif.setfile id { f with inuse := f.inuse - 1 }).f id =
        some { f with inuse := f.inuse - 1 } := update_self ..
    rw [if_pos hlast, if_pos (by omega)]
    exact hset.lastclose hself (hgood hlast)
  · rw [if_neg hlast, if_neg (by omega)]
    exact hset

/-! ## Other messages -/

theorem Multi.write (h : Multi nif held) (hf : nif.f id = some f) (msg : Ctl A)
    (hadd : ∀ a, msg ≠ .addmulti (some a)) (hrem : ∀ a, msg ≠ .remmulti (some a)) :
    Multi (nif.netifwrite id msg).1 held := by
  cases msg with
  | connect type =>
    simp only [Netif.netifwrite]
    split
    · exact h
    · have hmod : Multi (nif.mod id fun f => { f with type := type }) held :=
        h.mod hf (mod_f hf) rfl rfl rfl rfl rfl rfl
      dsimp only
      split
      · exact hmod.congr rfl rfl rfl rfl hmod.low
          (fun i f' hf' f₀ hf₀ => by rw [hf₀, hf']; exact ⟨rfl, rfl⟩) fun i f hf => ⟨f, hf⟩
      · exact hmod
  | promiscuous =>
    simp only [Netif.netifwrite, hf]
    split
    · exact h.mod hf (mod_f (g := fun f => { f with prom := 1 }) hf) rfl rfl rfl rfl rfl rfl
    · exact h
  | scanbs type =>
    simp only [Netif.netifwrite, hf]
    split
    · exact h.mod hf (mod_f (g := fun f => { f with scan := if type < 5 then 5 else type }) hf)
        rfl rfl rfl rfl rfl rfl
    · exact h
  | bridge => exact h.mod hf (mod_f hf) rfl rfl rfl rfl rfl rfl
  | headersonly => exact h.mod hf (mod_f hf) rfl rfl rfl rfl rfl rfl
  | addmulti addr =>
    cases addr with
    | none => exact h
    | some a => exact absurd rfl (hadd a)
  | remmulti addr =>
    cases addr with
    | none => exact h
    | some a => exact absurd rfl (hrem a)
  | other => exact h

end NixMark.Nif
