import NixMark.Wait.Exit

/-!
# The pids of processes

* `Pc.named`, `Pc.live`, `Pc.alive`, `Pc.keeps`: what a process still is, by its next statement.
* `Move`: what a step does; `Plain`: the statements that only move on.
* `Pids`: a process has a pid of its own, and a new `Proc` belongs to one `sysrfork`.
-/

namespace NixMark.Wait

open Lib

variable {P : Type} [DecidableEq P]

namespace Pc

/-- The process has a pid. -/
def named : Pc P → Bool
  | .free | .fresh | .freeing | .moribund => false
  | _ => true

/-- The process has been made and has not come past its parent in `pexit`. -/
def live : Pc P → Bool
  | .user | .newpid .. | .born .. | .pwait | .sleep | .asleep | .take | .got _ | .exit _ => true
  | _ => false

/-- It has a pid and has not come to `addbroken`. -/
def alive : Pc P → Bool
  | .free | .fresh | .freeing | .moribund | .broken | .unpid true => false
  | _ => true

/-- Its records are not freed. -/
def keeps : Pc P → Bool
  | .free | .moribund => false
  | _ => true

def holds : Pc P → Option Nat
  | .got pid => some pid
  | _ => none

def making : Pc P → Option P
  | .newpid child _ | .born child _ => some child
  | _ => none

/-- after `wakeup` -/
def roused : Pc P → Pc P
  | .asleep => .take
  | k => k

end Pc

variable {nowait : Bool}

omit [DecidableEq P] in
@[simp] theorem Proc.born_pid {x : Proc P} {up : P} {pid : Nat} :
    (x.born up pid nowait).pid = x.pid := rfl

omit [DecidableEq P] in
@[simp] theorem Proc.born_pc {x : Proc P} {up : P} {pid : Nat} :
    (x.born up pid nowait).pc = .user := rfl

namespace Sys

variable {s : Sys P} {p q x : P} {f : Proc P → Proc P} {k : Pc P}

theorem mod_proc : (s.mod p f).proc q = if q = p then f (s.proc p) else s.proc q :=
  Function.update_apply ..

theorem goto_proc :
    (s.goto p k).proc q = if q = p then { s.proc p with pc := k } else s.proc q := mod_proc

theorem newpid_proc : (s.newpid x).proc q =
    if q = x then { s.proc x with pid := s.pidalloc + 1, pc := .made } else s.proc q :=
  mod_proc (f := fun x : Proc P => { x with pid := s.pidalloc + 1, pc := .made })

variable {child : P}

theorem birth_proc (hcp : child ≠ p) :
    (s.birth p child nowait).proc q =
      if q = child then (s.proc child).born p (s.proc p).pid nowait
      else if q = p then { s.proc p with
        nchild := if nowait then (s.proc p).nchild else (s.proc p).nchild + 1 }
      else s.proc q := by
  refine (mod_proc (f := fun x : Proc P => { x with
    nchild := if nowait then x.nchild else x.nchild + 1 })).trans ?_
  rw [mod_proc, mod_proc, if_neg (Ne.symm hcp)]
  by_cases hqc : q = child
  · rw [if_pos hqc, if_neg (hqc ▸ hcp), if_pos hqc]
  · rw [if_neg hqc, if_neg hqc]

theorem wakeup_proc : (s.wakeup p).proc q =
    if q = p then { s.proc p with pc := (s.proc p).pc.roused } else s.proc q := by
  by_cases h : (s.proc p).pc = .asleep
  · have hw : s.wakeup p = s.goto p .take := by
      unfold wakeup
      rw [h]
    rw [hw, goto_proc, h]
    rfl
  · have hw : s.wakeup p = s := by
      unfold wakeup
      split
      · contradiction
      · rfl
    have hr : (s.proc p).pc.roused = (s.proc p).pc := by
      unfold Pc.roused
      split
      · contradiction
      · rfl
    rw [hw, hr]
    split
    · rename_i hqp
      rw [hqp]
    · rfl

theorem wakeup_ghosts : (s.wakeup p).pidalloc = s.pidalloc ∧ (s.wakeup p).origin = s.origin ∧
    (s.wakeup p).linked = s.linked ∧ (s.wakeup p).returned = s.returned ∧
    (s.wakeup p).freed = s.freed := by
  unfold wakeup
  split <;> exact ⟨rfl, rfl, rfl, rfl, rfl⟩

/-- The parent is not alive, or another process. -/
theorem leave_off (h : ¬((s.proc x).pid = (s.proc p).parentpid ∧ (s.proc x).pc.isbroken = false)) :
    s.leave p x = s := by
  unfold leave
  rw [if_neg h]

/-- There are too many records. -/
theorem leave_full (h : (s.proc x).pid = (s.proc p).parentpid ∧ (s.proc x).pc.isbroken = false)
    (hfull : ¬(s.proc x).nwait < 128) :
    s.leave p x = s.mod x fun y => { y with nchild := y.nchild - 1 } := by
  unfold leave
  rw [if_pos h]
  exact if_neg hfull

/-- The record is linked. -/
theorem leave_link (h : (s.proc x).pid = (s.proc p).parentpid ∧ (s.proc x).pc.isbroken = false)
    (hroom : (s.proc x).nwait < 128) :
    (∀ q, (s.leave p x).proc q = if q = x then { s.proc x with
      nchild := (s.proc x).nchild - 1, waitq := (s.proc p).pid :: (s.proc x).waitq
      nwait := (s.proc x).nwait + 1, pc := (s.proc x).pc.roused } else s.proc q) ∧
    (s.leave p x).pidalloc = s.pidalloc ∧ (s.leave p x).origin = s.origin ∧
    (s.leave p x).linked = Function.update s.linked (s.proc p).pid (s.linked (s.proc p).pid + 1) ∧
    (s.leave p x).returned = s.returned ∧ (s.leave p x).freed = s.freed := by
  have hleave : s.leave p x =
      ((s.mod x fun y => { y with nchild := y.nchild - 1 }).link x (s.proc p).pid).wakeup x := by
    unfold leave
    rw [if_pos h]
    exact if_pos hroom
  rw [hleave]
  obtain ⟨h1, h2, h3, h4, h5⟩ := wakeup_ghosts (p := x)
    (s := (s.mod x fun y => { y with nchild := y.nchild - 1 }).link x (s.proc p).pid)
  refine ⟨fun q => ?_, h1, h2, h3, h4, h5⟩
  have hlink : ∀ q, ((s.mod x fun y => { y with nchild := y.nchild - 1 }).link x
      (s.proc p).pid).proc q = if q = x then { s.proc x with
        nchild := (s.proc x).nchild - 1, waitq := (s.proc p).pid :: (s.proc x).waitq
        nwait := (s.proc x).nwait + 1 } else s.proc q := by
    intro q
    refine (mod_proc (f := fun y : Proc P => { y with
      waitq := (s.proc p).pid :: y.waitq, nwait := y.nwait + 1 })).trans ?_
    rw [mod_proc, mod_proc, if_pos rfl]
    split <;> rfl
  rw [wakeup_proc, hlink, hlink, if_pos rfl]
  split <;> rfl

end Sys

/-- The statements that only move on. -/
inductive Plain (x : Proc P) : Pc P → Prop
  | pwait (h : x.pc = .user) : Plain x .pwait
  | nochild (h : x.pc = .pwait) : Plain x .user
  | waits (h : x.pc = .pwait) (hsome : ¬(x.nchild = 0 ∧ x.waitq = [])) : Plain x .sleep
  | sleeps (h : x.pc = .sleep) (hq : x.waitq = []) : Plain x .asleep
  | awake (h : x.pc = .sleep) (hq : x.waitq ≠ []) : Plain x .take
  | note (h : x.pc = .sleep ∨ x.pc = .asleep) : Plain x .user
  | error {child : P} {nowait : Bool} (h : x.pc = .born child nowait) : Plain x .user
  | exits {freemem : Bool} (h : x.pc = .user) : Plain x (.exit freemem)
  | frees {freemem : Bool} (h : x.pc = .left freemem) : Plain x (.unpid false)
  | breaks {freemem : Bool} (h : x.pc = .left freemem) : Plain x .broken
  | unbreak (h : x.pc = .broken) : Plain x (.unpid true)
  | ends (h : x.pc = .moribund) : Plain x .free

/-- What a step does. -/
inductive Move (s : Sys P) (p : P) : Sys P → Prop
  | plain {k : Pc P} (h : Plain (s.proc p) k) : Move s p (s.goto p k)
  | rfork {child : P} {nowait : Bool} (hp : (s.proc p).pc = .user) (hc : (s.proc child).pc = .free) :
    Move s p ((s.mod child fun x =>
      { x with nchild := 0, nwait := 0, waitq := [], parent := none, pc := .fresh }).goto p
        (.newpid child nowait))
  | newpid {child : P} {nowait : Bool} (hp : (s.proc p).pc = .newpid child nowait) :
    Move s p ((s.newpid child).goto p (.born child nowait))
  | born {child : P} {nowait : Bool} (hp : (s.proc p).pc = .born child nowait) :
    Move s p ((s.birth p child nowait).goto p .user)
  | take {pid : Nat} {l : List Nat} (hp : (s.proc p).pc = .take) (hl : (s.proc p).waitq = pid :: l) :
    Move s p (s.mod p fun x => { x with waitq := l, nwait := x.nwait - 1, pc := .got pid })
  | got {pid : Nat} (hp : (s.proc p).pc = .got pid) :
    Move s p { s.goto p .user with returned := Function.update s.returned pid (s.returned pid + 1) }
  | exit {freemem : Bool} {parent : P} (hp : (s.proc p).pc = .exit freemem)
    (hparent : (s.proc p).parent = some parent) :
    Move s p ((s.leave p parent).goto p (.left freemem))
  | unpid {broke : Bool} (hp : (s.proc p).pc = .unpid broke) :
    Move s p (s.mod p fun x => { x with pid := 0, pc := .freeing })
  | freeing (hp : (s.proc p).pc = .freeing) :
    Move s p { s.goto p .moribund with
      freed := fun pid => s.freed pid + (s.proc p).waitq.count pid }

theorem act_move {s s' : Sys P} {p : P} {a : Act P} (h : s.act p a = some s') : Move s p s' := by
  cases a with
  | rfork child nowait =>
    simp only [Sys.act] at h
    split at h
    · cases h
      exact .rfork ‹_› ‹_›
    · cases h
  | pwait =>
    simp only [Sys.act] at h
    split at h
    · cases h
      exact .plain (.pwait ‹_›)
    · cases h
  | exit freemem =>
    simp only [Sys.act] at h
    split at h
    · cases h
      exact .plain (.exits ‹_›)
    · cases h
  | error =>
    simp only [Sys.act] at h
    split at h
    · cases h
      exact .plain (.error ‹_›)
    · cases h
  | note =>
    simp only [Sys.act] at h
    split at h
    · cases h
      exact .plain (.note (.inl ‹_›))
    · cases h
      exact .plain (.note (.inr ‹_›))
    · cases h
  | unbreak =>
    simp only [Sys.act] at h
    split at h
    · cases h
      exact .plain (.unbreak ‹_›)
    · cases h
  | go =>
    simp only [Sys.act, Sys.go] at h
    split at h
    case h_7 hp =>
      cases h
      exact .newpid hp
    case h_8 hp =>
      cases h
      exact .born hp
    case h_9 hp =>
      cases h
      split
      · exact .plain (.nochild hp)
      · exact .plain (.waits hp ‹_›)
    case h_10 hp =>
      cases h
      split
      · exact .plain (.sleeps hp ‹_›)
      · exact .plain (.awake hp ‹_›)
    case h_11 hp =>
      split at h
      · cases h
      · cases h
        exact .take hp ‹_›
    case h_12 hp =>
      cases h
      exact .got hp
    case h_13 hp =>
      split at h
      · cases h
      · cases h
        exact .exit hp ‹_›
    case h_14 freemem hp =>
      cases h
      cases freemem with
      | true => exact .plain (.frees hp)
      | false => exact .plain (.breaks hp)
    case h_15 hp =>
      cases h
      exact .unpid hp
    case h_16 hp =>
      cases h
      exact .freeing hp
    case h_17 hp =>
      cases h
      exact .plain (.ends hp)
    all_goals cases h

variable {s s' : Sys P} {p q x : P} {k : Pc P}

omit [DecidableEq P] in
theorem Pc.roused_same : k.roused.named = k.named ∧ k.roused.live = k.live ∧
    k.roused.alive = k.alive ∧ k.roused.keeps = k.keeps ∧ k.roused.holds = k.holds ∧
    (k.roused = .made → k = .made) := by
  cases k <;> simp [Pc.roused, Pc.named, Pc.live, Pc.alive, Pc.keeps, Pc.holds]

omit [DecidableEq P] in
theorem Plain.moves {y : Proc P} (h : Plain y k) : k.named = y.pc.named ∧ k.live = y.pc.live ∧
    (k.alive = true → y.pc.alive = true) ∧ k.keeps = y.pc.keeps ∧ k.holds = y.pc.holds ∧
    y.pc ≠ .fresh ∧ y.pc ≠ .made ∧ k.making = none ∧ k ≠ .made := by
  cases h with
  | note h => rcases h with h | h <;> rw [h] <;> simp [Pc.named, Pc.live, Pc.alive, Pc.keeps, Pc.holds, Pc.making]
  | _ => simp [*, Pc.named, Pc.live, Pc.alive, Pc.keeps, Pc.holds, Pc.making]

/-! ## Pids -/

/-- A process has a pid of its own, and a new `Proc` belongs to one `sysrfork`. -/
structure Pids (s : Sys P) : Prop where
  le : ∀ q, (s.proc q).pid ≤ s.pidalloc
  named : ∀ q, (s.proc q).pid ≠ 0 ↔ (s.proc q).pc.named = true
  uniq : ∀ q x, (s.proc q).pid = (s.proc x).pid → (s.proc q).pid ≠ 0 → q = x
  fresh : ∀ q child nowait, (s.proc q).pc = .newpid child nowait → (s.proc child).pc = .fresh
  made : ∀ q child nowait, (s.proc q).pc = .born child nowait → (s.proc child).pc = .made
  maker : ∀ q x child, (s.proc q).pc.making = some child → (s.proc x).pc.making = some child → q = x

/-- The `Proc` of a process is not being made before, and it makes none after. -/
structure Pc.Over (k k' : Pc P) : Prop where
  named : k'.named = k.named
  fresh : k ≠ .fresh
  made : k ≠ .made
  making : k'.making = none

omit [DecidableEq P] in
theorem Pids.keep (h : Pids s) (halloc : s'.pidalloc = s.pidalloc)
    (hpid : ∀ q, (s'.proc q).pid = (s.proc q).pid)
    (hpc : ∀ q, (s'.proc q).pc = (s.proc q).pc ∨ (s.proc q).pc.Over (s'.proc q).pc) : Pids s' where
  le q := by rw [hpid, halloc]; exact h.le q
  named q := by
    rw [hpid, h.named]
    rcases hpc q with he | he
    · rw [he]
    · rw [he.named]
  uniq q x := by rw [hpid, hpid]; exact h.uniq q x
  fresh q child nowait hq := by
    have hold : (s.proc q).pc = .newpid child nowait := by
      rcases hpc q with he | he
      · rw [← he, hq]
      · have hm := he.making
        rw [hq] at hm
        cases hm
    rcases hpc child with he | he
    · rw [he, h.fresh q child nowait hold]
    · exact absurd (h.fresh q child nowait hold) he.fresh
  made q child nowait hq := by
    have hold : (s.proc q).pc = .born child nowait := by
      rcases hpc q with he | he
      · rw [← he, hq]
      · have hm := he.making
        rw [hq] at hm
        cases hm
    rcases hpc child with he | he
    · rw [he, h.made q child nowait hold]
    · exact absurd (h.made q child nowait hold) he.made
  maker q x child hq hx := by
    have hold : ∀ y, (s'.proc y).pc.making = some child → (s.proc y).pc.making = some child := by
      intro y hy
      rcases hpc y with he | he
      · rw [← he, hy]
      · rw [he.making] at hy
        cases hy
    exact h.maker q x child (hold q hq) (hold x hx)


omit [DecidableEq P] in
theorem Pids.making (h : Pids s) {child : P} (hq : (s.proc q).pc.making = some child) :
    (s.proc child).pc = .fresh ∨ (s.proc child).pc = .made := by
  cases hk : (s.proc q).pc with
  | newpid c nowait =>
    rw [hk] at hq
    cases hq
    exact .inl (h.fresh q _ nowait hk)
  | born c nowait =>
    rw [hk] at hq
    cases hq
    exact .inr (h.made q _ nowait hk)
  | _ => rw [hk] at hq; cases hq

omit [DecidableEq P] in
theorem Pc.roused_over : k.roused = k ∨ k.Over k.roused := by
  cases k <;> first | exact .inl rfl | exact .inr ⟨rfl, by simp, by simp, rfl⟩

/-- `newproc` begins. -/
theorem Pids.rfork (h : Pids s) {child : P} (hp : (s.proc p).pc = .user)
    (hc : (s.proc child).pc = .free) (nowait : Bool) (halloc : s'.pidalloc = s.pidalloc)
    (hpid : ∀ q, (s'.proc q).pid = (s.proc q).pid)
    (hpc : ∀ q, (s'.proc q).pc =
      if q = p then .newpid child nowait else if q = child then .fresh else (s.proc q).pc) :
    Pids s' := by
  -- nobody is making the new `Proc`
  have hno : ∀ q, (s.proc q).pc.making ≠ some child := by
    intro q hq
    rcases h.making hq with hf | hf <;> rw [hc] at hf <;> cases hf
  have hother : ∀ q, q ≠ p → (s'.proc q).pc.making = none ∨ (s'.proc q).pc = (s.proc q).pc := by
    intro q hq
    rw [hpc, if_neg hq]
    split
    · exact .inl rfl
    · exact .inr rfl
  constructor
  · intro q
    rw [hpid, halloc]
    exact h.le q
  · intro q
    rw [hpid, h.named, hpc]
    split
    · rename_i hqp
      rw [hqp, hp]
      simp [Pc.named]
    · split
      · rename_i hqc
        rw [hqc, hc]
        simp [Pc.named]
      · rfl
  · intro q x
    rw [hpid, hpid]
    exact h.uniq q x
  · intro q c nowait' hq
    by_cases hqp : q = p
    · rw [hpc, if_pos hqp] at hq
      cases hq
      have hcp : child ≠ p := by
        rintro rfl
        rw [hp] at hc
        cases hc
      rw [hpc, if_neg hcp, if_pos rfl]
    · rcases hother q hqp with hk | hk
      · rw [hq] at hk
        cases hk
      · have hold := h.fresh q c nowait' (hk ▸ hq)
        rw [hpc, if_neg, if_neg, hold]
        · rintro rfl
          rw [hc] at hold
          cases hold
        · rintro rfl
          rw [hp] at hold
          cases hold
  · intro q c nowait' hq
    by_cases hqp : q = p
    · rw [hpc, if_pos hqp] at hq
      cases hq
    · rcases hother q hqp with hk | hk
      · rw [hq] at hk
        cases hk
      · have hold := h.made q c nowait' (hk ▸ hq)
        rw [hpc, if_neg, if_neg, hold]
        · rintro rfl
          rw [hc] at hold
          cases hold
        · rintro rfl
          rw [hp] at hold
          cases hold
  · intro q x c hq hx
    have hcase : ∀ y, (s'.proc y).pc.making = some c → y = p ∧ c = child ∨
        y ≠ p ∧ (s.proc y).pc.making = some c := by
      intro y hy
      by_cases hyp : y = p
      · rw [hpc, if_pos hyp] at hy
        exact .inl ⟨hyp, (Option.some.inj hy).symm⟩
      · rcases hother y hyp with hk | hk
        · rw [hk] at hy
          cases hy
        · exact .inr ⟨hyp, hk ▸ hy⟩
    rcases hcase q hq with ⟨hqp, hc'⟩ | ⟨-, hq'⟩ <;> rcases hcase x hx with ⟨hxp, hc'⟩ | ⟨-, hx'⟩
    · rw [hqp, hxp]
    · exact absurd (hc' ▸ hx') (hno x)
    · exact absurd (hc' ▸ hq') (hno q)
    · exact h.maker q x c hq' hx'

/-- `newproc` gives the pid. -/
theorem Pids.newpid (h : Pids s) {child : P} (hp : (s.proc p).pc = .newpid child nowait)
    (halloc : s'.pidalloc = s.pidalloc + 1)
    (hpid : ∀ q, (s'.proc q).pid = if q = child then s.pidalloc + 1 else (s.proc q).pid)
    (hpc : ∀ q, (s'.proc q).pc =
      if q = p then .born child nowait else if q = child then .made else (s.proc q).pc) :
    Pids s' := by
  have hc := h.fresh p child nowait hp
  have hcp : child ≠ p := by
    rintro rfl
    rw [hp] at hc
    cases hc
  have hmaking : ∀ q, (s'.proc q).pc.making = (s.proc q).pc.making := by
    intro q
    rw [hpc]
    split
    · rename_i hqp
      rw [hqp, hp]
      rfl
    · split
      · rename_i hqc
        rw [hqc, hc]
        rfl
      · rfl
  -- nobody else is making the child
  have hno : ∀ q, q ≠ p → (s.proc q).pc.making ≠ some child := fun q hq hm =>
    hq (h.maker q p child hm (by rw [hp]; rfl))
  constructor
  · intro q
    rw [hpid, halloc]
    have hle := h.le q
    split <;> omega
  · intro q
    rw [hpid, hpc]
    split
    · rename_i hqc
      rw [if_neg (hqc ▸ hcp)]
      simp [Pc.named]
    · split
      · rename_i hqp
        rw [h.named, hqp, hp]
        rfl
      · exact h.named q
  · intro q x
    rw [hpid, hpid]
    have hq := h.le q
    have hx := h.le x
    split <;> rename_i hqc <;> split <;> rename_i hxc
    · intro _ _
      rw [hqc, hxc]
    · omega
    · omega
    · exact h.uniq q x
  · intro q c nowait' hq
    have hqp : q ≠ p := by
      rintro rfl
      rw [hpc, if_pos rfl] at hq
      cases hq
    have hqc : q ≠ child := by
      rintro rfl
      rw [hpc, if_neg hqp, if_pos rfl] at hq
      cases hq
    rw [hpc, if_neg hqp, if_neg hqc] at hq
    have hold := h.fresh q c nowait' hq
    have hcc : c ≠ child := by
      rintro rfl
      exact hno q hqp (by rw [hq]; rfl)
    have hcp' : c ≠ p := by
      rintro rfl
      rw [hp] at hold
      cases hold
    rw [hpc, if_neg hcp', if_neg hcc, hold]
  · intro q c nowait' hq
    by_cases hqp : q = p
    · rw [hpc, if_pos hqp] at hq
      cases hq
      rw [hpc, if_neg hcp, if_pos rfl]
    · have hm := hmaking q
      rw [hq] at hm
      have hqc : q ≠ child := by
        rintro rfl
        rw [hc] at hm
        cases hm
      rw [hpc, if_neg hqp, if_neg hqc] at hq
      have hold := h.made q c nowait' hq
      rw [hpc, if_neg, if_neg, hold]
      · rintro rfl
        rw [hc] at hold
        cases hold
      · rintro rfl
        rw [hp] at hold
        cases hold
  · intro q x c
    rw [hmaking, hmaking]
    exact h.maker q x c

/-- The child runs. -/
theorem Pids.born (h : Pids s) {child : P} (hp : (s.proc p).pc = .born child nowait)
    (halloc : s'.pidalloc = s.pidalloc) (hpid : ∀ q, (s'.proc q).pid = (s.proc q).pid)
    (hpc : ∀ q, (s'.proc q).pc = if q = p ∨ q = child then .user else (s.proc q).pc) : Pids s' := by
  have hc := h.made p child nowait hp
  have hno : ∀ q, q ≠ p → (s.proc q).pc.making ≠ some child := fun q hq hm =>
    hq (h.maker q p child hm (by rw [hp]; rfl))
  have hold : ∀ {q k}, (s'.proc q).pc = k → k ≠ .user → q ≠ p ∧ (s.proc q).pc = k := by
    intro q k hq hk
    rw [hpc] at hq
    split at hq
    · exact absurd hq.symm hk
    · rename_i hne
      exact ⟨fun he => hne (.inl he), hq⟩
  -- what another process makes stays as it is
  have hkeep : ∀ {q c}, q ≠ p → (s.proc q).pc.making = some c → (s'.proc c).pc = (s.proc c).pc := by
    intro q c hq hm
    rw [hpc, if_neg]
    rintro (rfl | rfl)
    · rcases h.making hm with hf | hf <;> rw [hp] at hf <;> cases hf
    · exact hno q hq hm
  constructor
  · intro q
    rw [hpid, halloc]
    exact h.le q
  · intro q
    rw [hpid, h.named, hpc]
    split
    · rename_i hq
      rcases hq with rfl | rfl
      · rw [hp]
        simp [Pc.named]
      · rw [hc]
        simp [Pc.named]
    · rfl
  · intro q x
    rw [hpid, hpid]
    exact h.uniq q x
  · intro q c nowait' hq
    obtain ⟨hqp, hq⟩ := hold hq (by simp)
    rw [hkeep hqp (by rw [hq]; rfl), h.fresh q c nowait' hq]
  · intro q c nowait' hq
    obtain ⟨hqp, hq⟩ := hold hq (by simp)
    rw [hkeep hqp (by rw [hq]; rfl), h.made q c nowait' hq]
  · intro q x c hq hx
    have hback : ∀ y, (s'.proc y).pc.making = some c → (s.proc y).pc.making = some c := by
      intro y hy
      have hne : (s'.proc y).pc ≠ .user := by
        intro he
        rw [he] at hy
        cases hy
      rw [(hold rfl hne).2]
      exact hy
    exact h.maker q x c (hback q hq) (hback x hx)

/-- `up->pid = 0` -/
theorem Pids.unpid (h : Pids s) {broke : Bool} (hp : (s.proc p).pc = .unpid broke)
    (halloc : s'.pidalloc = s.pidalloc)
    (hpid : ∀ q, (s'.proc q).pid = if q = p then 0 else (s.proc q).pid)
    (hpc : ∀ q, (s'.proc q).pc = if q = p then .freeing else (s.proc q).pc) : Pids s' := by
  have hmaking : ∀ q, (s'.proc q).pc.making = (s.proc q).pc.making := by
    intro q
    rw [hpc]
    split
    · rename_i hqp
      rw [hqp, hp]
      rfl
    · rfl
  constructor
  · intro q
    rw [hpid, halloc]
    split
    · exact Nat.zero_le _
    · exact h.le q
  · intro q
    rw [hpid, hpc]
    split
    · simp [Pc.named]
    · exact h.named q
  · intro q x
    rw [hpid, hpid]
    split
    · intro _ hne
      exact absurd rfl hne
    · split
      · intro he hne
        exact absurd he hne
      · exact h.uniq q x
  · intro q c nowait hq
    rw [hpc] at hq
    split at hq
    · cases hq
    · have hold := h.fresh q c nowait hq
      rw [hpc, if_neg, hold]
      rintro rfl
      rw [hp] at hold
      cases hold
  · intro q c nowait hq
    rw [hpc] at hq
    split at hq
    · cases hq
    · have hold := h.made q c nowait hq
      rw [hpc, if_neg, hold]
      rintro rfl
      rw [hp] at hold
      cases hold
  · intro q x c
    rw [hmaking, hmaking]
    exact h.maker q x c

end NixMark.Wait
