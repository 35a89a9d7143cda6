import NixMark.Lib.Lts
import NixMark.Rt.Sound

/-!
# The real-time processes of a running system

The messages to the `ctl` file of a process that are about real time (`procctlreq` of
`port/devproc.c`), and what becomes of its parameters when it breaks or exits. A message is one
step; its time is what `parsetime` made of it. Parameters may be set at any time: `edfstop` expels
the process first.

* `edfinit`, `edfstop`, `procctl`: the functions of the source; `rt`: all sequences of messages.
* `guests`: the admitted processes.
* `admissions_schedulable`: in every run they meet their deadlines together, as long as no process
  asks with a cost below 0 or for sums that do not fit into a `long`.
-/

namespace NixMark.Rt

open Lib

variable {P : Type} [DecidableEq P]

/-- `malloc` clears the memory. -/
def edfinit (procs : P → Proc) (p : P) : P → Proc :=
  if (procs p).edf.isNone then setedf procs p ⟨0, 0, 0, false, .Dl, 0⟩ else procs

def edfstop (procs : P → Proc) (p : P) : P → Proc :=
  if (procs p).isAdmitted then setedf procs p { edfof procs p with admitted := false } else procs

/-- A message that sets one of the parameters, to a time in ns, or one that is no time. -/
def setparam (procs : P → Proc) (p : P) (set : Edf → BitVec 32 → Edf) :
    Option (BitVec 64) → P → Proc
  | none => edfinit procs p
  | some time =>
    let procs := edfstop (edfinit procs p) p
    setedf procs p (set (edfof procs p) ((time.sdiv 1000).setWidth 32))

/-- The messages; `flag` stands for `sporadic`, `deadlinenotes` and `extra`. -/
inductive Ctl where
  | period (time : Option (BitVec 64))
  | deadline (time : Option (BitVec 64))
  | cost (time : Option (BitVec 64))
  | flag
  | admission
  | expel

/-- An `edfadmit` that would follow a nil pointer has no outcome. -/
def procctl (ps : List P) (procs : P → Proc) (p : P) : Ctl → Option (P → Proc)
  | .period time => some (setparam procs p (fun e t => { e with T := t }) time)
  | .deadline time => some (setparam procs p (fun e t => { e with D := t }) time)
  | .cost time => some (setparam procs p (fun e t => { e with C := t }) time)
  | .flag => some (edfinit procs p)
  | .admission =>
    if (procs p).edf.isNone then some procs else Option.map Prod.snd <| edfadmit procs ps p
  | .expel => some (edfstop procs p)

/-- `exit`: from `pexit` on a process counts as dead. -/
inductive Act where
  | ctl (c : Ctl)
  | newproc
  | broken
  | exit

def exec (ps : List P) (procs : P → Proc) (e : P × Act) : Option (P → Proc) :=
  match e.2, (procs e.1).dead with
  | .ctl c, false => procctl ps procs e.1 c
  | .broken, false => some (edfstop procs e.1)
  | .exit, false => some (Function.update procs e.1 ⟨true, none⟩)
  | .newproc, true => some (Function.update procs e.1 ⟨false, none⟩)
  | _, _ => none

/-- The processes `ps` of the system, none of which has parameters at first. -/
def rt (ps : List P) : Lts (P → Proc) (P × Act) where
  init procs := ∀ p, (procs p).edf = none
  step procs e procs' := exec ps procs e = some procs'

/-- The admitted processes. -/
def guests (procs : P → Proc) (ps : List P) : Finset P :=
  (ps.filter fun p => !(procs p).dead && (procs p).isAdmitted).toFinset

/-- The parameters that are tested: a deadline that is not set is the period. -/
def Edf.filled (e : Edf) : Edf := if e.D = 0 then { e with D := e.T } else e

/-- A process that asks to be admitted has a positive cost, and the sums of the test fit. -/
def sound (ps : List P) (procs : P → Proc) (e : P × Act) : Bool :=
  match e.2, (procs e.1).edf with
  | .ctl .admission, some edf =>
    0 < edf.C.toInt && (testinit (setedf procs e.1 edf.filled) ps e.1).Fits Maxsteps
  | _, _ => true

/-- The runs whose requests are sound. -/
def soundrt (ps : List P) : Lts (P → Proc) (P × Act) :=
  (rt ps).restrict fun procs e => sound ps procs e = true

variable {procs procs' : P → Proc} {ps : List P} {p q : P}

/-- The parameters of the admitted processes are in order, and so is their demand. -/
structure Guarded (ps : List P) (procs : P → Proc) : Prop where
  ok : ∀ p ∈ guests procs ps, (edfof procs p).Ok
  demand : ∀ t, demand (guests procs ps) (fun p => (edfof procs p).task) t ≤ t

/-- Nothing changes, or one process changes and is not admitted afterwards. -/
structure Leaves (procs procs' : P → Proc) (p : P) : Prop where
  off : ∀ q ≠ p, procs' q = procs q
  self : procs' p = procs p ∨ (procs' p).isAdmitted = false

theorem setedf_off (e : Edf) (h : q ≠ p) : setedf procs p e q = procs q :=
  Function.update_of_ne h ..

theorem setedf_self (e : Edf) : setedf procs p e p = { procs p with edf := some e } :=
  Function.update_self ..

omit [DecidableEq P] in
theorem Leaves.trans {procs'' : P → Proc} (h : Leaves procs procs' p)
    (h' : Leaves procs' procs'' p) : Leaves procs procs'' p where
  off q hq := (h'.off q hq).trans (h.off q hq)
  self := by
    obtain he | ha := h'.self
    · rw [he]
      exact h.self
    · exact .inr ha

theorem edfinit_leaves : Leaves procs (edfinit procs p) p := by
  unfold edfinit
  split
  · exact ⟨fun q => setedf_off _, .inr (by rw [setedf_self]; rfl)⟩
  · exact ⟨fun _ _ => rfl, .inl rfl⟩

theorem edfstop_leaves : Leaves procs (edfstop procs p) p ∧
    (edfstop procs p p).isAdmitted = false := by
  unfold edfstop
  split
  · have h : (setedf procs p { edfof procs p with admitted := false } p).isAdmitted = false := by
      rw [setedf_self]
      rfl
    exact ⟨⟨fun q => setedf_off _, .inr h⟩, h⟩
  · rename_i h
    exact ⟨⟨fun _ _ => rfl, .inl rfl⟩, Bool.not_eq_true _ ▸ h⟩

theorem setparam_leaves {set : Edf → BitVec 32 → Edf} {time : Option (BitVec 64)}
    (hset : ∀ e t, (set e t).admitted = e.admitted) :
    Leaves procs (setparam procs p set time) p := by
  cases time with
  | none => exact edfinit_leaves
  | some time =>
    obtain ⟨hstop, hout⟩ := @edfstop_leaves P _ (edfinit procs p) p
    refine (edfinit_leaves.trans hstop).trans ⟨fun q => setedf_off _, .inr ?_⟩
    have he : (edfof (edfstop (edfinit procs p) p) p).admitted = false := by
      unfold edfof
      unfold Proc.isAdmitted at hout
      cases h : (edfstop (edfinit procs p) p p).edf with
      | none => rfl
      | some e =>
        rw [h] at hout
        exact hout
    change (setedf (edfstop (edfinit procs p) p) p _ p).isAdmitted = false
    rw [setedf_self]
    exact (hset _ _).trans he

/-- A call of `edfadmit` fails and admits nobody, or the test passed. -/
theorem edfadmit_spec {err : Option String} (h : edfadmit procs ps p = some (err, procs')) :
    Leaves procs procs' p ∨ ∃ e, (procs p).edf = some e ∧ (0 < e.C.toInt → e.filled.Ok) ∧
      testschedulability (setedf procs p e.filled) ps p = some none ∧
      procs' = setedf (setedf procs p e.filled) p { e.filled with admitted := true } := by
  have hsame : Leaves procs procs p := ⟨fun _ _ => rfl, .inl rfl⟩
  unfold edfadmit at h
  cases hedf : (procs p).edf with
  | none =>
    simp only [hedf] at h
    cases h
  | some e =>
    have hfill : e.admitted = false → Leaves procs (setedf procs p e.filled) p := by
      refine fun hadm => ⟨fun q => setedf_off _, .inr ?_⟩
      rw [setedf_self]
      change e.filled.admitted = false
      unfold Edf.filled
      split <;> exact hadm
    have hC : e.filled.C = e.C := by
      unfold Edf.filled
      split <;> rfl
    have hD : ¬ e.T.slt e.D = true → e.filled.D.toInt ≤ e.filled.T.toInt := by
      rw [BitVec.slt_iff_toInt_lt, not_lt]
      unfold Edf.filled
      split
      · exact fun _ => le_rfl
      · exact id
    simp only [hedf] at h
    rw [show (if e.D = 0 then { e with D := e.T } else e) = e.filled from rfl] at h
    split_ifs at h with hadm _ _ hDT hCD
    iterate 4
      · cases h
        exact .inl hsame
    · cases h
      exact .inl (hfill (Bool.not_eq_true _ ▸ hadm))
    · obtain ⟨err', hrun, h⟩ := Option.map_eq_some_iff.mp h
      cases err' with
      | some err' =>
        cases h
        exact .inl (hfill (Bool.not_eq_true _ ▸ hadm))
      | none =>
        cases h
        rw [BitVec.slt_iff_toInt_lt, not_lt] at hCD
        exact .inr ⟨e, rfl, fun hpos => ⟨by rwa [hC], hCD, hD hDT⟩, hrun, rfl⟩

theorem mem_guests : p ∈ guests procs ps ↔
    p ∈ ps ∧ (procs p).dead = false ∧ (procs p).isAdmitted = true := by
  unfold guests
  rw [List.mem_toFinset, List.mem_filter, Bool.and_eq_true, Bool.not_eq_true']

theorem mem_admitted : q ∈ admitted procs ps p ↔
    q ∈ ps ∧ (procs q).dead = false ∧ ((procs q).isAdmitted = true ∨ q = p) := by
  unfold admitted tested
  rw [List.mem_toFinset, List.mem_filter, Bool.and_eq_true, Bool.not_eq_true', Bool.or_eq_true,
    beq_iff_eq]

/-- Fewer processes have a smaller demand. -/
theorem Guarded.leaves (h : Guarded ps procs) (hl : Leaves procs procs' p) : Guarded ps procs' := by
  have hsub : ∀ q ∈ guests procs' ps, q ∈ guests procs ps ∧ procs' q = procs q := by
    intro q hq
    have he : procs' q = procs q := by
      by_cases hqp : q = p
      · rw [mem_guests, hqp] at hq
        rw [hqp]
        exact hl.self.resolve_right fun hh => by
          rw [hh] at hq
          cases hq.2.2
      · exact hl.off q hqp
    rw [mem_guests, he] at hq
    exact ⟨mem_guests.mpr hq, he⟩
  have hedf : ∀ q ∈ guests procs' ps, edfof procs' q = edfof procs q := by
    intro q hq
    unfold edfof
    rw [(hsub q hq).2]
  refine ⟨fun q hq => ?_, fun t => ?_⟩
  · rw [hedf q hq]
    exact h.ok q (hsub q hq).1
  · calc Lib.demand (guests procs' ps) (fun p => (edfof procs' p).task) t
        = Lib.demand (guests procs' ps) (fun p => (edfof procs p).task) t :=
          Finset.sum_congr rfl fun q hq => by simp only [hedf q hq]
      _ ≤ Lib.demand (guests procs ps) (fun p => (edfof procs p).task) t :=
          Finset.sum_le_sum_of_subset fun q hq => (hsub q hq).1
      _ ≤ t := h.demand t

/-- The candidate and the admitted processes passed the test. -/
theorem Guarded.admits (hps : ps.Nodup) (h : Guarded ps procs) {e : Edf}
    (hok : e.Ok) (hfits : (testinit (setedf procs p e) ps p).Fits Maxsteps = true)
    (htest : testschedulability (setedf procs p e) ps p = some none) :
    Guarded ps (setedf (setedf procs p e) p { e with admitted := true }) := by
  have hset : guests (setedf (setedf procs p e) p { e with admitted := true }) ps =
      admitted (setedf procs p e) ps p := by
    ext q
    rw [mem_guests, mem_admitted]
    by_cases hqp : q = p
    · rw [hqp, setedf_self, setedf_self]
      simp [Proc.isAdmitted]
    · rw [setedf_off _ hqp, or_iff_left hqp]
  have hedf : ∀ q, (edfof (setedf (setedf procs p e) p { e with admitted := true }) q).task =
      (edfof (setedf procs p e) q).task := by
    intro q
    unfold edfof
    by_cases hqp : q = p
    · rw [hqp, setedf_self, setedf_self]
      rfl
    · rw [setedf_off _ hqp]
  have hoks : ∀ q ∈ admitted (setedf procs p e) ps p, (edfof (setedf procs p e) q).Ok := by
    intro q hq
    unfold edfof
    by_cases hqp : q = p
    · rw [hqp, setedf_self]
      exact hok
    · rw [setedf_off _ hqp]
      refine h.ok q (mem_guests.mpr ?_)
      rw [mem_admitted, or_iff_left hqp, setedf_off _ hqp] at hq
      exact hq
  refine ⟨fun q hq => ?_, fun t => ?_⟩
  · rw [hset] at hq
    have hq' := hoks q hq
    unfold edfof at hq' ⊢
    by_cases hqp : q = p
    · rw [hqp, setedf_self] at hq' ⊢
      exact ⟨hq'.cost, hq'.deadline, hq'.period⟩
    · rwa [setedf_off _ hqp]
  · rw [hset]
    simp only [hedf]
    exact Inv.run Maxsteps _ _ _ (testinit_inv hps hoks) hfits htest t

theorem Guarded.step (hps : ps.Nodup) (h : Guarded ps procs) {e : P × Act}
    (hs : exec ps procs e = some procs') (hg : sound ps procs e = true) :
    Guarded ps procs' := by
  obtain ⟨p, a⟩ := e
  unfold exec at hs
  split at hs
  case h_1 c ha hd =>
    change a = .ctl c at ha
    subst ha
    cases c with
    | period | deadline | cost =>
      cases hs
      exact h.leaves (setparam_leaves fun _ _ => rfl)
    | flag =>
      cases hs
      exact h.leaves edfinit_leaves
    | expel =>
      cases hs
      exact h.leaves edfstop_leaves.1
    | admission =>
      unfold procctl at hs
      simp only at hs
      split at hs
      · cases hs
        exact h
      · obtain ⟨⟨err, procs''⟩, hadm, rfl⟩ := Option.map_eq_some_iff.mp hs
        obtain hl | ⟨e, hedf, hok, htest, he⟩ := edfadmit_spec hadm
        · exact h.leaves hl
        · simp only [sound, hedf, Bool.and_eq_true, decide_eq_true_iff] at hg
          obtain ⟨hpos, hfits⟩ := hg
          rw [he]
          exact h.admits hps (hok hpos) hfits htest
  case h_2 =>
    cases hs
    exact h.leaves edfstop_leaves.1
  case h_3 | h_4 =>
    cases hs
    exact h.leaves ⟨fun q hq => Function.update_of_ne hq .., .inr (by rw [Function.update_self]; rfl)⟩
  case h_5 => cases hs

theorem rt_inductive (hps : ps.Nodup) : (soundrt ps).Inductive (Guarded ps) where
  init procs h := by
    have hempty : guests procs ps = ∅ := by
      refine Finset.eq_empty_of_forall_notMem fun p hp => ?_
      have ha := (mem_guests.mp hp).2.2
      rw [Proc.isAdmitted, h p] at ha
      cases ha
    refine ⟨fun p hp => ?_, fun t => ?_⟩
    · rw [hempty] at hp
      exact absurd hp (Finset.notMem_empty p)
    · rw [hempty]
      exact Nat.zero_le t
  step _ _ _ h hs := h.step hps hs.1 hs.2

/-- At every time in every run, the processes that are admitted meet all their deadlines when they
are scheduled by earliest deadline. -/
theorem admissions_schedulable (hps : ps.Nodup)
    (h : (soundrt ps).Reach procs) :
    (∀ t, demand (guests procs ps) (fun p => (edfof procs p).task) t ≤ t) ∧
      ∀ σ, IsEdf (guests procs ps) (fun p => (edfof procs p).task) σ →
        ∀ j : Job P, j.1 ∈ guests procs ps →
          ran σ j (deadline (fun p => (edfof procs p).task) j) = (edfof procs j.1).C.toNat := by
  have hi := (rt_inductive hps).reach h
  have hpos : ∀ p ∈ guests procs ps, 0 < (edfof procs p).task.T ∧ 0 < (edfof procs p).task.D := by
    intro p hp
    obtain ⟨h₁, h₂, h₃, -⟩ := (hi.ok p hp).toNat
    exact ⟨h₁.trans_le (h₂.trans h₃), h₁.trans_le h₂⟩
  exact ⟨hi.demand, fun σ hσ j hj =>
    hσ.meets (fun p hp => (hpos p hp).1) (fun p hp => (hpos p hp).2) hi.demand hj⟩

/-- Two processes are admitted, and the first sets its cost again and is admitted once more. -/
theorem admissions_schedulable_two : ∃ procs : Bool → Proc, (soundrt [true, false]).Reach procs ∧
    guests procs [true, false] = {true, false} ∧
      ∀ t, demand (guests procs [true, false]) (fun p => (edfof procs p).task) t ≤ t := by
  have hrun : (([(true, Act.ctl (.period (some 4000))), (true, .ctl (.cost (some 1000))),
      (true, .ctl .admission), (false, .ctl (.period (some 6000))), (false, .ctl (.deadline (some 5000))),
      (false, .ctl (.cost (some 3000))), (false, .ctl .admission), (true, .ctl (.cost (some 2000))),
      (true, .ctl .admission)].foldlM (fun procs e =>
        if sound [true, false] procs e then exec [true, false] procs e else none)
          fun _ => ⟨false, none⟩).map fun procs => guests procs [true, false]) = some {true, false} := by
    decide +kernel
  obtain ⟨procs, hs, hguests⟩ := Option.map_eq_some_iff.mp hrun
  have hreach : (soundrt [true, false]).Reach procs :=
    Lts.Reach.exec (fun _ _ _ h => (Option.ite_none_right_eq_some.mp h).symm)
      ⟨[], .init fun _ => rfl⟩ hs
  exact ⟨procs, hreach, hguests, (admissions_schedulable (by decide) hreach).1⟩

end NixMark.Rt
