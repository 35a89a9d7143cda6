import NixMark.Rendezvous.Chains

/-!
# Calls of rendezvous are paired

* `Told`: what the statement that a process is at says about its call and that of its partner.
* `Pairs`: the records of all calls agree.
* `rendezvous_pairs`, `rendezvous_twice`.
-/

namespace NixMark.Rendezvous

open Lib
open Function (update update_apply update_of_ne update_self)

variable {P G : Type} {s s' : Sys P G} {p q t : P} {g : G}

/-- What a call with this end returns. -/
def Sys.value (s : Sys P G) : Fate P → Word
  | .mate c => (s.arg c).2
  | .interrupted => ones

/-- The call of `p` has not ended, and nobody has readied `p` in it. -/
def Open (s : Sys P G) (p : P) : Prop :=
  s.fate (p, s.now p) = none ∧ s.readied (p, s.now p) = 0

def Told (s : Sys P G) (p : P) : Prop :=
  match s.pc p with
  | .enter tag val | .scan _ tag val => s.arg (p, s.now p) = (tag, val) ∧ Open s p
  | .linked _ _ | .asleep =>
    Open s p ∧ (s.arg (p, s.now p)).1 = s.rendtag p ∧
      ((∀ t, (s.pc t).pulled ≠ some p) → (s.arg (p, s.now p)).2 = s.rendval p)
  | .ready _ q val =>
    Open s p ∧ s.arg (p, s.now p) = (s.rendtag q, s.rendval q) ∧ val = (s.arg (q, s.now q)).2
  | .pready q _ => s.rendval q = ones
  | .unlock _ val => ∃ f, s.fate (p, s.now p) = some f ∧ val = s.value f
  | .woken => ∃ f, s.fate (p, s.now p) = some f ∧ s.rendval p = s.value f
  | _ => True

structure Pairs (s : Sys P G) : Prop where
  told : ∀ p, Told s p
  later : ∀ p n, s.now p < n → s.fate (p, n) = none ∧ s.readied (p, n) = 0
  mates : ∀ c c', s.fate c = some (.mate c') →
    s.fate c' = some (.mate c) ∧ c' ≠ c ∧ (s.arg c').1 = (s.arg c).1
  once : ∀ c, s.readied c ≤ if (s.fate c).isSome then 1 else 0
  ret : ∀ c v, s.ret c = some v → ∃ f, s.fate c = some f ∧ v = s.value f

/-- What is said of a process that makes no step. -/
theorem Told.frame (h : Told s t) (hpc : s'.pc t = s.pc t) (hnow : s'.now t = s.now t)
    (harg : s'.arg (t, s.now t) = s.arg (t, s.now t))
    (hfate : s'.fate (t, s.now t) = s.fate (t, s.now t))
    (hreadied : s'.readied (t, s.now t) = s.readied (t, s.now t)) (htag : s'.rendtag t = s.rendtag t)
    (hwaits : (∀ u, (s'.pc u).pulled ≠ some t) →
      (∀ u, (s.pc u).pulled ≠ some t) ∧ s'.rendval t = s.rendval t)
    (hwoken : s.pc t = .woken → s'.rendval t = s.rendval t)
    (hpulled : ∀ q, (s.pc t).pulled = some q → s'.rendtag q = s.rendtag q ∧
      s'.rendval q = s.rendval q ∧ s'.now q = s.now q ∧ s'.arg (q, s.now q) = s.arg (q, s.now q))
    (hvalue : ∀ f, s.fate (t, s.now t) = some f → s'.value f = s.value f) : Told s' t := by
  have hopen : Open s t → Open s' t := by
    intro ho
    unfold Open
    rw [hnow, hfate, hreadied]
    exact ho
  have hend : ∀ v, (∃ f, s.fate (t, s.now t) = some f ∧ v = s.value f) →
      ∃ f, s'.fate (t, s'.now t) = some f ∧ v = s'.value f := by
    rintro v ⟨f, hf, hv⟩
    exact ⟨f, by rw [hnow, hfate, hf], hv.trans (hvalue f hf).symm⟩
  unfold Told at *
  rw [hpc]
  cases hk : s.pc t with
  | enter tag val | scan g tag val =>
    rw [hk] at h
    exact ⟨by rw [hnow, harg]; exact h.1, hopen h.2⟩
  | linked g readied | asleep =>
    rw [hk] at h
    refine ⟨hopen h.1, by rw [hnow, harg, htag]; exact h.2.1, fun hall => ?_⟩
    obtain ⟨hall, hval⟩ := hwaits hall
    rw [hnow, harg, hval]
    exact h.2.2 hall
  | ready g q val =>
    rw [hk] at h
    obtain ⟨htq, hvq, hnq, haq⟩ := hpulled q (by rw [hk]; rfl)
    exact ⟨hopen h.1, by rw [hnow, harg, htq, hvq]; exact h.2.1, by rw [hnq, haq]; exact h.2.2⟩
  | pready q g =>
    rw [hk] at h
    exact (hpulled q (by rw [hk]; rfl)).2.1.trans h
  | unlock g val =>
    rw [hk] at h
    exact hend val h
  | woken =>
    rw [hk] at h
    have hv := hend _ h
    rw [← hwoken hk] at hv
    exact hv
  | _ => trivial

variable [DecidableEq P] {k : Pc P G}

/-- A statement that changes at most the tag and the value of the process itself. -/
theorem Pairs.goto (h : Pairs s) (hfree : ∀ t, (s.pc t).pulled ≠ some p)
    (hnone : (s.pc p).pulled = none) (tag val : P → Word)
    (htag : ∀ t ≠ p, tag t = s.rendtag t) (hval : ∀ t ≠ p, val t = s.rendval t)
    (htold : Told ({ s with rendtag := tag, rendval := val }.goto p k) p) :
    Pairs ({ s with rendtag := tag, rendval := val }.goto p k) where
  told t := by
    by_cases ht : t = p
    · rw [ht]
      exact htold
    · refine (h.told t).frame (update_of_ne ht _ _) rfl rfl rfl rfl (htag t ht)
        (fun hall => ⟨fun u hu => ?_, hval t ht⟩) (fun _ => hval t ht)
        (fun q hq => ?_) (fun _ _ => rfl)
      · by_cases hup : u = p
        · rw [hup, hnone] at hu
          cases hu
        · have hu' := hall u
          rw [goto_pc, if_neg hup] at hu'
          exact hu' hu
      · have hqp : q ≠ p := by
          rintro rfl
          exact hfree t hq
        exact ⟨htag q hqp, hval q hqp, rfl, rfl⟩
  later := h.later
  mates := h.mates
  once := h.once
  ret := h.ret

/-- A call returns. -/
theorem Pairs.leave (h : Pairs s) {v : Word}
    (hv : ∃ f, s.fate (p, s.now p) = some f ∧ v = s.value f) : Pairs (s.leave p v) where
  told := h.told
  later := h.later
  mates := h.mates
  once := h.once
  ret c w hc := by
    change update s.ret (p, s.now p) (some v) c = some w at hc
    rw [update_apply] at hc
    split at hc
    · rename_i hcp
      cases hc
      rw [hcp]
      exact hv
    · exact h.ret c w hc

/-- A call begins. -/
theorem Pairs.begin (h : Pairs s) (hc : Chains s) (hp : s.pc p = .user) {tag val : Word} :
    Pairs ((s.begin p tag val).goto p (.enter tag val)) := by
  have hfree : ∀ t, (s.pc t).pulled ≠ some p := by
    intro t ht
    rw [(hc.pulled t p ht).1] at hp
    cases hp
  have hnow : ∀ t, (s.begin p tag val).now t = if t = p then s.now p + 1 else s.now t :=
    fun t => update_apply ..
  have harg : ∀ c, (s.begin p tag val).arg c = if c = (p, s.now p + 1) then (tag, val) else s.arg c :=
    fun c => update_apply ..
  have hnew := h.later p (s.now p + 1) (Nat.lt_succ_self _)
  -- nobody has been paired with this call
  have hmate : ∀ {c c'}, s.fate c = some (.mate c') → c' ≠ (p, s.now p + 1) := by
    rintro c c' hf rfl
    have hback := (h.mates c _ hf).1
    rw [hnew.1] at hback
    cases hback
  have hvalue : ∀ {c f}, s.fate c = some f → (s.begin p tag val).value f = s.value f := by
    intro c f hf
    cases f with
    | interrupted => rfl
    | mate c' =>
      change ((s.begin p tag val).arg c').2 = (s.arg c').2
      rw [harg, if_neg (hmate hf)]
  refine ⟨fun t => ?_, fun q n hn => ?_, fun c c' hf => ?_, h.once, fun c v hv => ?_⟩
  · by_cases ht : t = p
    · subst ht
      unfold Told
      rw [goto_pc, if_pos rfl]
      have hn : ((s.begin t tag val).goto t (.enter tag val)).now t = s.now t + 1 :=
        (hnow t).trans (if_pos rfl)
      refine ⟨?_, ?_⟩
      · rw [hn]
        exact (harg _).trans (if_pos rfl)
      · unfold Open
        rw [hn]
        exact hnew
    · have hne : ∀ {q : P}, q ≠ p → ∀ n, (q, n) ≠ (p, s.now p + 1) := fun hq n he =>
        hq (congrArg Prod.fst he)
      have hother : ∀ {q : P}, q ≠ p → (s.begin p tag val).now q = s.now q ∧
          (s.begin p tag val).arg (q, s.now q) = s.arg (q, s.now q) := fun {q} hq =>
        ⟨(hnow q).trans (if_neg hq), (harg _).trans (if_neg (hne hq _))⟩
      refine (h.told t).frame (update_of_ne ht _ _) (hother ht).1 (hother ht).2 rfl rfl rfl
        (fun hall => ⟨fun u hu => ?_, rfl⟩) (fun _ => rfl)
        (fun q hq => ?_) (fun f hf => hvalue hf)
      · have hup : u ≠ p := by
          rintro rfl
          rw [hp] at hu
          cases hu
        have hu' := hall u
        rw [goto_pc, if_neg hup] at hu'
        exact hu' hu
      · have hqp : q ≠ p := by
          rintro rfl
          exact hfree t hq
        exact ⟨rfl, rfl, (hother hqp).1, (hother hqp).2⟩
  · have hn' : s.now q < n := by
      rw [show ((s.begin p tag val).goto p (.enter tag val)).now q = _ from hnow q] at hn
      split at hn
      · rename_i hqp
        rw [hqp]
        omega
      · exact hn
    exact h.later q n hn'
  · obtain ⟨hback, hne, htags⟩ := h.mates c c' hf
    refine ⟨hback, hne, ?_⟩
    change ((s.begin p tag val).arg c').1 = ((s.begin p tag val).arg c).1
    rw [harg, harg, if_neg (hmate hf), if_neg (hmate hback)]
    exact htags
  · obtain ⟨f, hf, hvf⟩ := h.ret c v hv
    exact ⟨f, hf, hvf.trans (hvalue hf).symm⟩

variable [DecidableEq G]

section
omit [DecidableEq G]

/-- A process is taken from its chain, and its value is changed. -/
theorem Pairs.take (h : Pairs s) (hq : s.pc q = .asleep)
    (hall : ∀ t, (s.pc t).pulled ≠ some q) (hp : (s.pc p).pulled = none) (hk : k.pulled = some q)
    {v : Word} (htold : Told ((s.setval q v).goto p k) p) : Pairs ((s.setval q v).goto p k) := by
  have hval : ∀ t, (s.setval q v).rendval t = if t = q then v else s.rendval t :=
    fun t => update_apply ..
  refine ⟨fun t => ?_, h.later, h.mates, h.once, h.ret⟩
  by_cases ht : t = p
  · rw [ht]
    exact htold
  · refine (h.told t).frame (update_of_ne ht _ _) rfl rfl rfl rfl rfl
      (fun hall' => ?_) (fun hwoken => ?_) (fun x hx => ?_) (fun _ _ => rfl)
    · have htq : t ≠ q := by
        rintro rfl
        have hself := hall' p
        rw [goto_pc, if_pos rfl] at hself
        exact hself hk
      refine ⟨fun u hu => ?_, (hval t).trans (if_neg htq)⟩
      have hup : u ≠ p := by
        rintro rfl
        rw [hp] at hu
        cases hu
      have hu' := hall' u
      rw [goto_pc, if_neg hup] at hu'
      exact hu' hu
    · refine (hval t).trans (if_neg ?_)
      rintro rfl
      rw [hq] at hwoken
      cases hwoken
    · have hxq : x ≠ q := by
        rintro rfl
        exact hall t hx
      exact ⟨rfl, (hval x).trans (if_neg hxq), rfl, rfl⟩

/-- A partner takes it, and they exchange values. -/
theorem Pairs.meet (h : Pairs s) (hc : Chains s) {tag val : Word} (hp : s.pc p = .scan g tag val)
    (hq : q ∈ s.chain g (REND tag)) (htag : s.rendtag q = tag) :
    Pairs ((s.setval q val).goto p (.ready g q (s.rendval q))) := by
  obtain ⟨hw, hr, -, hall⟩ := (hc.mem g (REND tag) q).mp hq
  have hqp : q ≠ p := by
    rintro rfl
    rw [hp] at hw
    cases hw
  have hqa := hc.asleep (p := p) (by rw [hp]; rfl) hqp hw hr
  have htold := h.told p
  have htoldq := h.told q
  unfold Told at htold htoldq
  rw [hp] at htold
  rw [hqa] at htoldq
  refine h.take hqa hall (by rw [hp]; rfl) rfl ?_
  unfold Told
  rw [goto_pc, if_pos rfl]
  refine ⟨htold.2, htold.1.trans ?_, (htoldq.2.2 hall).symm⟩
  refine Prod.ext htag.symm ?_
  exact (update_self (f := s.rendval) q val).symm

/-- `postnote` takes it. -/
theorem Pairs.pull (h : Pairs s) (hc : Chains s) (hp : s.pc p = .pcheck q g)
    (hw : (s.pc q).waits = true) : Pairs ((s.setval q ones).goto p (.pready q g)) := by
  have hqp : q ≠ p := by
    rintro rfl
    rw [hp] at hw
    cases hw
  have hholds : (s.pc p).holds = some g := by rw [hp]; rfl
  have hr := hc.captured p q g (by rw [hp]; rfl)
  have hqa := hc.asleep hholds hqp hw hr
  have hall : ∀ t, (s.pc t).pulled ≠ some q := by
    intro t ht
    obtain ⟨-, g', hg', hr'⟩ := hc.pulled t q ht
    rw [hr] at hr'
    cases hr'
    rw [hc.only hholds hg', hp] at ht
    cases ht
  refine h.take hqa hall (by rw [hp]; rfl) rfl ?_
  unfold Told
  rw [goto_pc, if_pos rfl]
  exact update_self q ones s.rendval

/-- The process that was taken is readied, and its call ends. -/
theorem Pairs.settle (h : Pairs s) (hc : Chains s) (hp : (s.pc p).pulled = some q)
    (hopen : Open s q) {fate : P × Nat → Option (Fate P)} (hq : (fate (q, s.now q)).isSome = true)
    (hkeep : ∀ c, c ≠ (q, s.now q) → c ≠ (p, s.now p) → fate c = s.fate c)
    (hsome : ∀ f, s.fate (p, s.now p) = some f → fate (p, s.now p) = some f)
    (hmates : ∀ c c', fate c = some (.mate c') →
      fate c' = some (.mate c) ∧ c' ≠ c ∧ (s.arg c').1 = (s.arg c).1)
    (htold : Told ({ s.ready q with fate := fate }.goto p k) p)
    (htoldq : Told ({ s.ready q with fate := fate }.goto p k) q) :
    Pairs ({ s.ready q with fate := fate }.goto p k) := by
  have hqa := (hc.pulled p q hp).1
  have hlater : ∀ x n, s.now x < n → (x, n) ≠ (q, s.now q) ∧ (x, n) ≠ (p, s.now p) := by
    refine fun x n hn => ⟨fun he => ?_, fun he => ?_⟩ <;> cases he <;> exact absurd hn (Nat.lt_irrefl _)
  have hfate : ∀ c f, s.fate c = some f → fate c = some f := by
    intro c f hf
    by_cases hcq : c = (q, s.now q)
    · rw [hcq, hopen.1] at hf
      cases hf
    · by_cases hcp : c = (p, s.now p)
      · subst hcp
        exact hsome f hf
      · rw [hkeep c hcq hcp]
        exact hf
  have hreadied : ∀ c, ({ s.ready q with fate := fate }.goto p k).readied c =
      if c = (q, s.now q) then s.readied (q, s.now q) + 1 else s.readied c :=
    fun c => update_apply ..
  have hpc : ∀ t, ({ s.ready q with fate := fate }.goto p k).pc t =
      if t = p then k else if t = q then .woken else s.pc t := by
    intro t
    rw [goto_pc]
    split
    · rfl
    · refine (update_apply ..).trans ?_
      rw [hqa]
  refine ⟨fun t => ?_, fun x n hn => ?_, hmates, fun c => ?_, fun c v hv => ?_⟩
  · by_cases ht : t = p
    · rw [ht]
      exact htold
    · by_cases htq : t = q
      · rw [htq]
        exact htoldq
      · have hne : ∀ {x : P}, x ≠ t → (t, s.now t) ≠ (x, s.now x) := fun hx he =>
          hx (congrArg Prod.fst he).symm
        refine (h.told t).frame (by rw [hpc, if_neg ht, if_neg htq]) rfl rfl
          (hkeep _ (hne (Ne.symm htq)) (hne (Ne.symm ht)))
          (by rw [hreadied, if_neg (hne (Ne.symm htq))]) rfl
          (fun hall => ⟨fun u hu => ?_, rfl⟩) (fun _ => rfl)
          (fun x hx => ⟨rfl, rfl, rfl, rfl⟩) (fun _ _ => rfl)
        have hu' := hall u
        rw [hpc] at hu'
        split at hu'
        · rename_i hup
          rw [hup, hp] at hu
          exact htq (Option.some.inj hu).symm
        · split at hu'
          · rename_i huq
            rw [huq, hqa] at hu
            cases hu
          · exact hu' hu
  · obtain ⟨hnq, hnp⟩ := hlater x n hn
    refine ⟨(hkeep _ hnq hnp).trans (h.later x n hn).1, ?_⟩
    rw [hreadied, if_neg hnq]
    exact (h.later x n hn).2
  · rw [hreadied]
    change _ ≤ if (fate c).isSome then 1 else 0
    split
    · rename_i hcq
      refine Nat.le_of_eq ?_
      rw [hcq, hopen.2, hq]
      rfl
    · refine Nat.le_trans (h.once c) ?_
      cases hf : s.fate c with
      | none => exact Nat.zero_le _
      | some f =>
        refine Nat.le_of_eq ?_
        rw [hfate c f hf]
  · obtain ⟨f, hf, hvf⟩ := h.ret c v hv
    exact ⟨f, hfate c f hf, hvf⟩

/-- A partner readies it, and the two calls are paired. -/
theorem Pairs.ready (h : Pairs s) (hc : Chains s) {val : Word} (hp : s.pc p = .ready g q val)
    (hqp : q ≠ p) (hopen : Open s p) (hopenq : Open s q)
    (htags : (s.arg (q, s.now q)).1 = (s.arg (p, s.now p)).1)
    (hval : s.rendval q = (s.arg (p, s.now p)).2) (hvalq : val = (s.arg (q, s.now q)).2) :
    Pairs ((((s.ready q).setfate q (.mate (p, s.now p))).setfate p (.mate (q, s.now q))).goto p
      (.unlock g val)) := by
  have hpulled : (s.pc p).pulled = some q := by rw [hp]; rfl
  have hqa := (hc.pulled p q hpulled).1
  have hne : (q, s.now q) ≠ (p, s.now p) := fun he => hqp (congrArg Prod.fst he)
  obtain ⟨fate, hfate⟩ : ∃ fate, fate = fun c => if c = (p, s.now p) then some (.mate (q, s.now q))
      else if c = (q, s.now q) then some (.mate (p, s.now p)) else s.fate c := ⟨_, rfl⟩
  have hstate : ((s.ready q).setfate q (.mate (p, s.now p))).setfate p (.mate (q, s.now q)) =
      { s.ready q with fate := fate } := by
    rw [hfate]
    unfold Sys.setfate
    congr 1
    funext c
    rw [update_apply]
    dsimp only
    rw [update_apply]
    rfl
  replace hfate := congrFun hfate
  rw [hstate]
  have hp' := (hfate (p, s.now p)).trans (if_pos rfl)
  have hq' := (hfate (q, s.now q)).trans ((if_neg hne).trans (if_pos rfl))
  refine h.settle hc hpulled hopenq (by rw [hq']; rfl) (fun c hcq hcp => ?_) (fun f hf => ?_)
    (fun c c' hf => ?_) ?_ ?_
  · rw [hfate, if_neg hcp, if_neg hcq]
  · rw [hopen.1] at hf
    cases hf
  · rw [hfate] at hf
    split at hf
    · rename_i hcp
      cases hf
      subst hcp
      exact ⟨hq', hne, htags⟩
    · split at hf
      · rename_i hcq
        cases hf
        subst hcq
        exact ⟨hp', hne.symm, htags.symm⟩
      · obtain ⟨hback, hcc, ht⟩ := h.mates c c' hf
        refine ⟨?_, hcc, ht⟩
        rw [hfate, if_neg ?_, if_neg ?_]
        · exact hback
        · rintro rfl
          rw [hopenq.1] at hback
          cases hback
        · rintro rfl
          rw [hopen.1] at hback
          cases hback
  · unfold Told
    rw [goto_pc, if_pos rfl]
    exact ⟨_, hp', hvalq⟩
  · unfold Told
    rw [goto_pc, if_neg hqp]
    have hwoken : (s.ready q).pc q = .woken := by
      refine (update_self ..).trans ?_
      rw [hqa]
    change match (s.ready q).pc q with | _ => _
    rw [hwoken]
    exact ⟨_, hq', hval⟩

/-- `postnote` readies it. -/
theorem Pairs.pready (h : Pairs s) (hc : Chains s) (hp : s.pc p = .pready q g) (hopen : Open s q)
    (hval : s.rendval q = ones) :
    Pairs (((s.ready q).setfate q .interrupted).goto p (.punlock q g)) := by
  have hpulled : (s.pc p).pulled = some q := by rw [hp]; rfl
  have hqa := (hc.pulled p q hpulled).1
  have hqp : q ≠ p := by
    rintro rfl
    rw [hp] at hqa
    cases hqa
  obtain ⟨fate, hfate⟩ : ∃ fate, fate = fun c => if c = (q, s.now q) then some .interrupted
      else s.fate c := ⟨_, rfl⟩
  have hstate : (s.ready q).setfate q .interrupted = { s.ready q with fate := fate } := by
    rw [hfate]
    unfold Sys.setfate
    congr 1
    funext c
    rw [update_apply]
    rfl
  replace hfate := congrFun hfate
  rw [hstate]
  have hq' := (hfate (q, s.now q)).trans (if_pos rfl)
  refine h.settle hc hpulled hopen (by rw [hq']; rfl) (fun c hcq _ => ?_) (fun f hf => ?_)
    (fun c c' hf => ?_) ?_ ?_
  · rw [hfate, if_neg hcq]
  · rw [hfate, if_neg ?_]
    · exact hf
    · exact fun he => hqp (congrArg Prod.fst he).symm
  · rw [hfate] at hf
    split at hf
    · cases hf
    · obtain ⟨hback, hcc, ht⟩ := h.mates c c' hf
      refine ⟨?_, hcc, ht⟩
      rw [hfate, if_neg ?_]
      · exact hback
      · rintro rfl
        rw [hopen.1] at hback
        cases hback
  · unfold Told
    rw [goto_pc, if_pos rfl]
    trivial
  · unfold Told
    rw [goto_pc, if_neg hqp]
    have hwoken : (s.ready q).pc q = .woken := by
      refine (update_self ..).trans ?_
      rw [hqa]
    change match (s.ready q).pc q with | _ => _
    rw [hwoken]
    exact ⟨_, hq', hval⟩

end

omit [DecidableEq P] [DecidableEq G] in
/-- Locks, chains and groups are not what it is about. -/
theorem Pairs.frame (h : Pairs s) (htag : s'.rendtag = s.rendtag) (hval : s'.rendval = s.rendval)
    (hnow : s'.now = s.now) (harg : s'.arg = s.arg) (hfate : s'.fate = s.fate)
    (hreadied : s'.readied = s.readied) (hret : s'.ret = s.ret) (hpc : s'.pc = s.pc) : Pairs s' where
  told t := (h.told t).frame (congrFun hpc t) (congrFun hnow t) (congrFun harg _) (congrFun hfate _)
    (congrFun hreadied _) (congrFun htag t) (fun hall => ⟨hpc ▸ hall, congrFun hval t⟩)
    (fun _ => congrFun hval t)
    (fun q _ => ⟨congrFun htag q, congrFun hval q, congrFun hnow q, congrFun harg _⟩)
    fun f _ => by cases f <;> simp [Sys.value, harg]
  later := by rw [hnow, hfate, hreadied]; exact h.later
  mates := by rw [hfate, harg]; exact h.mates
  once := by rw [hfate, hreadied]; exact h.once
  ret c v hc := by
    rw [hret] at hc
    obtain ⟨f, hf, hv⟩ := h.ret c v hc
    exact ⟨f, by rw [hfate]; exact hf, hv.trans (by cases f <;> simp [Sys.value, harg])⟩

theorem Pairs.move (h : Pairs s) (hc : Chains s) (hm : Move s p s') : Pairs s' := by
  have hfree : ∀ {k : Pc P G}, s.pc p = k → k ≠ .asleep → ∀ t, (s.pc t).pulled ≠ some p := by
    intro k hk hne t ht
    exact hne (hk.symm.trans (hc.pulled t p ht).1)
  -- a statement that only moves on
  have hplain : ∀ {k k' : Pc P G}, s.pc p = k → k ≠ .asleep → k.pulled = none →
      Told (s.goto p k') p → Pairs (s.goto p k') := by
    intro k k' hk hne hnone htold
    exact h.goto (hfree hk hne) (hk ▸ hnone) s.rendtag s.rendval (fun _ _ => rfl) (fun _ _ => rfl) htold
  have htold := h.told p
  unfold Told at htold
  cases hm with
  | @enter tag val g hp hg hl =>
    rw [hp] at htold
    have hgoto := h.goto (p := p) (k := .scan g tag val) (hfree hp (fun h => nomatch h))
      (by rw [hp]; rfl) s.rendtag (update s.rendval p ones) (fun _ _ => rfl)
      (fun t ht => update_of_ne ht _ _) ?_
    · exact hgoto.frame rfl rfl rfl rfl rfl rfl rfl rfl
    · unfold Told
      rw [goto_pc, if_pos rfl]
      exact htold
  | @meet g tag val q hp hq htag => exact (h.meet hc hp hq htag).frame rfl rfl rfl rfl rfl rfl rfl rfl
  | @link g tag val hp hno =>
    rw [hp] at htold
    have hgoto := h.goto (p := p) (k := .linked g false) (hfree hp (fun h => nomatch h))
      (by rw [hp]; rfl) (update s.rendtag p tag)
      (update s.rendval p val) (fun t ht => update_of_ne ht _ _)
      (fun t ht => update_of_ne ht _ _) ?_
    · exact hgoto.frame rfl rfl rfl rfl rfl rfl rfl rfl
    · unfold Told
      rw [goto_pc, if_pos rfl]
      refine ⟨htold.2, ?_, fun _ => ?_⟩
      · exact (congrArg Prod.fst htold.1).trans (update_self p tag s.rendtag).symm
      · exact (congrArg Prod.snd htold.1).trans (update_self p val s.rendval).symm
  | @ready g q val hp =>
    rw [hp] at htold
    obtain ⟨hopen, harg, hval⟩ := htold
    have hpulled : (s.pc p).pulled = some q := by rw [hp]; rfl
    have hqa := (hc.pulled p q hpulled).1
    have hqp : q ≠ p := by
      rintro rfl
      rw [hp] at hqa
      cases hqa
    have htoldq := h.told q
    unfold Told at htoldq
    rw [hqa] at htoldq
    exact h.ready hc hp hqp hopen htoldq.1 (htoldq.2.1.trans (congrArg Prod.fst harg).symm)
      (congrArg Prod.snd harg).symm hval
  | @unlock g val hp =>
    rw [hp] at htold
    have hleave : Pairs (s.leave p val) := h.leave htold
    have hgoto := hleave.goto (p := p) (k := .user) (hfree hp (fun h => nomatch h))
      (by rw [show (s.leave p val).pc p = _ from hp]; rfl) s.rendtag s.rendval
      (fun _ _ => rfl) (fun _ _ => rfl) (by unfold Told; rw [goto_pc, if_pos rfl]; trivial)
    exact hgoto.frame rfl rfl rfl rfl rfl rfl rfl rfl
  | @linked g readied hp =>
    rw [hp] at htold
    have hr : readied = false := by
      cases readied with
      | false => rfl
      | true => exact absurd hp (hc.linked p g)
    subst hr
    have hgoto : Pairs (s.goto p .asleep) := by
      refine hplain hp (fun h => nomatch h) rfl ?_
      unfold Told
      rw [goto_pc, if_pos rfl]
      refine ⟨htold.1, htold.2.1, fun hall => htold.2.2 fun t ht => ?_⟩
      have htp : t ≠ p := by
        rintro rfl
        rw [hp] at ht
        cases ht
      have ht' := hall t
      rw [goto_pc, if_neg htp] at ht'
      exact ht' ht
    exact hgoto.frame rfl rfl rfl rfl rfl rfl rfl rfl
  | woken hp =>
    rw [hp] at htold
    have hleave : Pairs (s.leave p (s.rendval p)) := h.leave htold
    exact hleave.goto (p := p) (k := .user) (hfree hp (fun h => nomatch h))
      (by rw [show (s.leave p (s.rendval p)).pc p = _ from hp]; rfl) s.rendtag
      s.rendval (fun _ _ => rfl) (fun _ _ => rfl)
      (by unfold Told; rw [goto_pc, if_pos rfl]; trivial)
  | @tested q hp =>
    exact hplain hp (fun h => nomatch h) rfl (by unfold Told; rw [goto_pc, if_pos rfl]; trivial)
  | @quit q hp =>
    have hgoto : Pairs (s.goto p .user) :=
      hplain hp (fun h => nomatch h) rfl (by unfold Told; rw [goto_pc, if_pos rfl]; trivial)
    exact hgoto.frame rfl rfl rfl rfl rfl rfl rfl rfl
  | @pread q g hp hg =>
    exact hplain hp (fun h => nomatch h) rfl (by unfold Told; rw [goto_pc, if_pos rfl]; trivial)
  | @plock q g hp hl =>
    have hgoto : Pairs (s.goto p (.pcheck q g)) :=
      hplain hp (fun h => nomatch h) rfl (by unfold Told; rw [goto_pc, if_pos rfl]; trivial)
    exact hgoto.frame rfl rfl rfl rfl rfl rfl rfl rfl
  | @pull q g g' hp hw hg => exact (h.pull hc hp hw).frame rfl rfl rfl rfl rfl rfl rfl rfl
  | @missed q g hp =>
    exact hplain hp (fun h => nomatch h) rfl (by unfold Told; rw [goto_pc, if_pos rfl]; trivial)
  | @pready q g hp =>
    rw [hp] at htold
    have hqa := (hc.pulled p q (by rw [hp]; rfl)).1
    have htoldq := h.told q
    unfold Told at htoldq
    rw [hqa] at htoldq
    exact h.pready hc hp htoldq.1 htold
  | @punlock q g g' hp hg =>
    have hgoto : Pairs (s.goto p .user) :=
      hplain hp (fun h => nomatch h) rfl (by unfold Told; rw [goto_pc, if_pos rfl]; trivial)
    exact hgoto.frame rfl rfl rfl rfl rfl rfl rfl rfl
  | begin hp hg => exact h.begin hc hp
  | rfrend hp hgood hno => exact h.frame rfl rfl rfl rfl rfl rfl rfl rfl
  | share hq hr => exact h.frame rfl rfl rfl rfl rfl rfl rfl rfl
  | fresh hq hr hno => exact h.frame rfl rfl rfl rfl rfl rfl rfl rfl
  | exit hp hd => exact h.frame rfl rfl rfl rfl rfl rfl rfl rfl
  | @postnote q hp hd =>
    have hgoto : Pairs (s.goto p (.post q)) :=
      hplain hp (fun h => nomatch h) rfl (by unfold Told; rw [goto_pc, if_pos rfl]; trivial)
    exact hgoto.frame rfl rfl rfl rfl rfl rfl rfl rfl

/-! ## Runs -/

theorem kernel_inductive : ((kernel P G).restrict Good).Inductive fun s => Chains s ∧ Pairs s where
  init := by
    rintro s ⟨huser, hchain, hlock, hdebug, hfate, hreadied, hret⟩
    have hpc : ∀ p (k : Pc P G), s.pc p = k → k = .user := fun p k hk => hk.symm.trans (huser p)
    refine ⟨⟨fun g t => ?_, fun p g h => ?_, fun t p g h => ?_, fun g b p => ?_, fun g b => ?_,
      fun g b p q h => ?_, fun t p h => ?_, fun p g h => ?_, fun t p g h => ?_, fun t p h => ?_,
      fun p h => ?_⟩, fun p => ?_, fun p n _ => ⟨hfate _, hreadied _⟩, fun c c' h => ?_, fun c => ?_,
      fun c v h => ?_⟩
    · rw [hlock, huser]
      constructor <;> intro h <;> cases h
    · rw [huser] at h
      cases h
    · rw [huser] at h
      cases h
    · rw [hchain, huser]
      constructor
      · intro h
        cases h
      · rintro ⟨h, -⟩
        cases h
    · rw [hchain]
      exact List.nodup_nil
    · rw [hchain] at h
      cases h
    · rw [huser] at h
      cases h
    · cases hpc p _ h
    · rw [huser] at h
      cases h
    · rw [huser] at h
      rcases h with h | h <;> cases h
    · rw [huser] at h
      cases h
    · unfold Told
      rw [huser]
      trivial
    · rw [hfate] at h
      cases h
    · rw [hreadied]
      exact Nat.zero_le _
    · rw [hret] at h
      cases h
  step := by
    rintro s ⟨p, act⟩ s' ⟨hc, hp⟩ ⟨hs, hgood⟩
    have hm := step_cases hgood hs
    exact ⟨hc.move hm, hp.move hc hm⟩

/-- It waits in the group, and nobody is about to ready it. -/
def Waiting (s : Sys P G) (p : P) (g : G) : Prop :=
  (s.pc p).waits = true ∧ s.rgrp p = some g ∧ ∀ t, (s.pc t).pulled ≠ some p

/-- Calls that have returned, processes that wait, and chains. -/
structure Paired (s : Sys P G) : Prop where
  ends : ∀ c v, s.ret c = some v → s.fate c = some .interrupted ∧ v = ones ∨
    ∃ c', s.fate c = some (.mate c') ∧ s.fate c' = some (.mate c) ∧ c' ≠ c ∧
      (s.arg c').1 = (s.arg c).1 ∧ v = (s.arg c').2
  once : ∀ c, s.readied c ≤ 1
  alone : ∀ p q g, Waiting s p g → Waiting s q g → s.rendtag p = s.rendtag q → p = q
  nodup : ∀ g b, (s.chain g b).Nodup
  chain : ∀ g b p, p ∈ s.chain g b ↔ Waiting s p g ∧ REND (s.rendtag p) = b
  /-- between two sections the processes on the chains are those in state `Rendezvous` -/
  unlocked : ∀ g, s.lock g = none → ∀ b p, p ∈ s.chain g b ↔
    (s.pc p).waits = true ∧ s.rgrp p = some g ∧ REND (s.rendtag p) = b

theorem rendezvous_pairs (h : ((kernel P G).restrict Good).Reach s) : Paired s := by
  obtain ⟨hc, hp⟩ := kernel_inductive.reach h
  have hmem : ∀ g b p, p ∈ s.chain g b ↔ Waiting s p g ∧ REND (s.rendtag p) = b := fun g b p =>
    ⟨fun hm => have hw := (hc.mem g b p).mp hm; ⟨⟨hw.1, hw.2.1, hw.2.2.2⟩, hw.2.2.1⟩,
      fun hw => (hc.mem g b p).mpr ⟨hw.1.1, hw.1.2.1, hw.2, hw.1.2.2⟩⟩
  refine ⟨fun c v hv => ?_, fun c => ?_, fun p q g hwp hwq htag => ?_, hc.nodup, hmem,
    fun g hl b p => ?_⟩
  · obtain ⟨f, hf, hvf⟩ := hp.ret c v hv
    cases f with
    | interrupted => exact .inl ⟨hf, hvf⟩
    | mate c' =>
      obtain ⟨hback, hne, htags⟩ := hp.mates c c' hf
      exact .inr ⟨c', hf, hback, hne, htags, hvf⟩
  · refine Nat.le_trans (hp.once c) ?_
    split
    · exact Nat.le_refl _
    · exact Nat.zero_le _
  · exact hc.tags g (REND (s.rendtag p)) p q ((hmem g _ p).mpr ⟨hwp, rfl⟩)
      ((hmem g _ q).mpr ⟨hwq, by rw [htag]⟩) htag
  · rw [hc.mem]
    refine ⟨fun hw => ⟨hw.1, hw.2.1, hw.2.2.1⟩, fun hw => ⟨hw.1, hw.2.1, hw.2.2, fun t ht => ?_⟩⟩
    obtain ⟨-, g', hg', hr⟩ := hc.pulled t p ht
    rw [hw.2.1] at hr
    cases hr
    rw [(hc.lock g t).mpr hg'] at hl
    cases hl

/-! ## Four processes -/

/-- The first three share a group, the fourth is not there yet. -/
private def four : Sys (Fin 4) Bool where
  rgrp p := if p = 3 then none else some false
  chain _ _ := []
  lock _ := none
  debug _ := none
  rendtag _ := 0#64
  rendval _ := 0#64
  pc _ := .user
  now _ := 0
  arg _ := (0#64, 0#64)
  fate _ := none
  readied _ := 0
  ret _ := none

theorem four_init : (kernel (Fin 4) Bool).init four :=
  ⟨fun _ => rfl, fun _ _ => rfl, fun _ => rfl, fun _ => rfl, fun _ => rfl, fun _ => rfl, fun _ => rfl⟩

/-- Steps whose new groups are new; with `stay` no process leaves its group. -/
private def fitting (stay : Bool) (s : Sys (Fin 4) Bool) (e : Fin 4 × Act (Fin 4) Bool) :
    Option (Sys (Fin 4) Bool) :=
  match e.2 with
  | .rfrend g => if stay = false ∧ ∀ p, s.rgrp p ≠ some g then s.act e.1 e.2 else none
  | .rfork _ (some _) => none
  | _ => s.act e.1 e.2

theorem fitting_step {stay : Bool} {s s' : Sys (Fin 4) Bool}
    {e : Fin 4 × Act (Fin 4) Bool} (h : fitting stay s e = some s') :
    (kernel (Fin 4) Bool).step s e s' ∧ (stay = true → Good s e) := by
  obtain ⟨p, act⟩ := e
  cases act with
  | rfrend g =>
    obtain ⟨⟨hstay, hno⟩, h⟩ := Option.ite_none_right_eq_some.mp h
    exact ⟨⟨hno, h⟩, fun hs => absurd (hstay.symm.trans hs) Bool.false_ne_true⟩
  | rfork child g =>
    cases g with
    | none => exact ⟨⟨trivial, h⟩, fun _ => trivial⟩
    | some g => cases h
  | _ => exact ⟨⟨trivial, h⟩, fun _ => trivial⟩

/-- Two calls are paired, and a note ends a third one. -/
private def noted : List (Fin 4 × Act (Fin 4) Bool) :=
  [(0, .rendezvous 0#64 7#64), (0, .go), (0, .go), (0, .go), (2, .rendezvous 0#64 8#64), (2, .go), (2, .go),
    (2, .go), (2, .go), (0, .go), (0, .rendezvous 0#64 9#64), (0, .go), (0, .go), (0, .go),
    (1, .postnote 0), (1, .go), (1, .go), (1, .go), (1, .go), (1, .go), (1, .go), (0, .go)]

theorem rendezvous_pairs_noted : ∃ s : Sys (Fin 4) Bool,
    ((kernel (Fin 4) Bool).restrict Good).Reach s ∧ s.ret (0, 1) = some 8 ∧
      s.ret (2, 1) = some 7 ∧ s.ret (0, 2) = some ones ∧ Paired s := by
  obtain ⟨s, hs⟩ : ∃ s, noted.foldlM (fitting true) four = some s := ⟨_, rfl⟩
  have hstep : ∀ s e s', fitting true s e = some s' →
      ((kernel (Fin 4) Bool).restrict Good).step s e s' :=
    fun s e s' h => ⟨(fitting_step h).1, (fitting_step h).2 rfl⟩
  have hreach := Lts.Reach.exec hstep ⟨[], .init four_init⟩ hs
  cases hs
  exact ⟨_, hreach, rfl, rfl, rfl, rendezvous_pairs hreach⟩

/-- The first process is paired and moves to a new group before the note comes to its old one, and
waits there for the fourth. -/
private def moved : List (Fin 4 × Act (Fin 4) Bool) :=
  [(0, .rendezvous 0#64 7#64), (0, .go), (0, .go), (0, .go), (1, .postnote 0), (1, .go), (1, .go),
    (2, .rendezvous 0#64 8#64), (2, .go), (2, .go), (2, .go), (2, .go), (0, .go), (0, .rfrend true),
    (0, .rfork 3 none), (0, .rendezvous 0#64 9#64), (0, .go), (0, .go), (0, .go), (3, .rendezvous 0#64 10#64),
    (3, .go), (3, .go), (1, .go), (1, .go), (3, .go), (3, .go), (1, .go), (0, .go)]

/-- It is readied twice and returns `~0`, while its partner returns its value. -/
theorem rendezvous_twice : ∃ s : Sys (Fin 4) Bool, (kernel (Fin 4) Bool).Reach s ∧
    s.readied (0, 2) = 2 ∧ s.ret (0, 2) = some ones ∧ s.fate (3, 1) = some (.mate (0, 2)) ∧
      s.ret (3, 1) = some 9 ∧ ¬ Paired s := by
  obtain ⟨s, hs⟩ : ∃ s, moved.foldlM (fitting false) four = some s := ⟨_, rfl⟩
  have hreach : (kernel (Fin 4) Bool).Reach s :=
    Lts.Reach.exec (fun _ _ _ h => (fitting_step h).1) ⟨[], .init four_init⟩ hs
  cases hs
  exact ⟨_, hreach, rfl, rfl, rfl, rfl, fun h => absurd (h.once (0, 2)) (by decide)⟩

end NixMark.Rendezvous
